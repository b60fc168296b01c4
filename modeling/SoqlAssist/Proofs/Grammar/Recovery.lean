import SoqlAssist.Proofs.Grammar.Coverage
import SoqlAssist.Proofs.Grammar.Shape

/-!
How reading goes on behind a problem. Some reserved words do nothing but open a clause; such a word
is never taken by another rule, so it is the first token of its clause or it is left over behind the
query. The clauses of a query end at the first token that opens none, and what is left over starts
there.
-/
namespace SoqlAssist

/-- The clause that a reserved word opens, if it does nothing else. -/
def clauseOf : TokenKind → Option Rule
  | .USING => some .usingScope
  | .WHERE => some .whereClause
  | .HAVING => some .havingClause
  | .WITH => some .withClause
  | .LIMIT => some .limitClause
  | .OFFSET => some .offsetClause
  | .FOR => some .forClause
  | _ => none

def clauseKinds : List TokenKind :=
  [.USING, .WHERE, .WITH, .GROUP, .HAVING, .ORDER, .LIMIT, .OFFSET, .FOR, .UPDATE]

/-- No token of the row opens a clause and does nothing else. -/
def Plain (labels : List Label) : Prop :=
  ∀ k, .token k ∈ labels → clauseOf k = none

/-- Below the rule stands no word that opens a clause, or the rule is the clause and the word comes
first. -/
def Headed (r : Rule) (labels : List Label) : Prop :=
  Plain labels ∨ ∃ k rest, labels = .token k :: rest ∧ clauseOf k = some r ∧ Plain rest

/-- The document aside, a word that opens a clause stands only at the head of its clause. -/
def Opened (kind : Nat → TokenKind) (F : Forest) : Prop :=
  F.Every fun r _ below => r = .query ∨ Headed r (below.labels kind)

theorem plain_append {labels labels' : List Label} (first : Plain labels) (second : Plain labels') :
    Plain (labels ++ labels') := by
  intro k member
  rcases List.mem_append.mp member with member | member
  · exact first k member
  · exact second k member

theorem plain_cons {x : Label} {labels : List Label} (first : ∀ k, x = .token k → clauseOf k = none)
    (rest : Plain labels) : Plain (x :: labels) := by
  intro k member
  rcases List.mem_cons.mp member with same | member
  · exact first k same.symm
  · exact rest k member

theorem plain_nil : Plain [] := by
  intro k member
  exact absurd member List.not_mem_nil

namespace Grammar

/-- The goal is a part of a query and takes a word that opens a clause only to open it. -/
def Goal.Tame : Goal → Prop
  | .query | .trailing | .skipRest => False
  | .one k _ => clauseOf k = none
  | .maybe ks => ∀ k ∈ ks, clauseOf k = none
  | _ => True

/-- The instructions take no such word and not the mark at the end. -/
def TameItems (items : List Item) : Prop :=
  .endMark ∉ items ∧ ∀ g, .goal g ∈ items → g.Tame

variable {R : Reading} {s s' : List Nat} {g : Goal} {F : Forest} {k₁ k₂ : TokenKind}
  {items : List Item} {entered : List Rule}

theorem tame_expand (planned : plan g k₁ k₂ = .expand items) (tame : g.Tame) :
    TameItems items := by
  cases g <;>
    simp only [plan, clausePlan, comparisonPlan, valuePlan, withPlan, failed] at planned <;>
    (repeat' split at planned) <;>
    simp only [Plan.expand.injEq, reduceCtorEq] at planned <;>
    subst planned <;>
    first
    | exact tame.elim
    | simp [TameItems, Goal.Tame, token, clauseOf]

theorem clauseOf_name (name : atName k₁ k₂ = true) : clauseOf k₁ = none := by
  cases k₁ <;> first | rfl | simp [atName, softKeywords] at name

theorem clauseOf_call (call : atCall k₁ k₂ = true) : clauseOf k₁ = none := by
  rw [atCall, Bool.and_eq_true, Bool.or_eq_true, beq_iff_eq] at call
  rcases call.1 with name | rfl
  · exact clauseOf_name name
  · rfl

theorem tame_shift (planned : plan g k₁ k₂ = .shift entered items) (tame : g.Tame) :
    TameItems items := by
  cases g <;>
    simp only [plan, clausePlan, comparisonPlan, valuePlan, withPlan, failed] at planned <;>
    (repeat' split at planned) <;>
    simp only [Plan.shift.injEq, reduceCtorEq] at planned <;>
    obtain ⟨rfl, rfl⟩ := planned <;>
    first
    | exact tame.elim
    | simp [TameItems, Goal.Tame, token, callTail, clauseOf]

/-- A tame goal takes a word that opens a clause only to enter the clause. -/
theorem entered_shift (planned : plan g k₁ k₂ = .shift entered items) (tame : g.Tame) :
    clauseOf k₁ = none ∨ ∃ c, clauseOf k₁ = some c ∧ entered = [c] := by
  have name : atName k₁ k₂ = true → clauseOf k₁ = none := clauseOf_name
  have call : atCall k₁ k₂ = true → clauseOf k₁ = none := clauseOf_call
  cases g <;>
    simp only [plan, clausePlan, comparisonPlan, valuePlan, withPlan, failed] at planned <;>
    (repeat' split at planned) <;>
    simp only [Plan.shift.injEq, reduceCtorEq] at planned <;>
    obtain ⟨rfl, rfl⟩ := planned
  -- The next token is a name, or of one of up to three kinds that the goal asks for.
  case maybe.isTrue =>
    rename_i member
    exact .inl (tame _ (List.contains_iff_mem.mp member))
  all_goals
    first
    | exact tame.elim
    | exact .inl rfl
    | exact .inr ⟨_, rfl, rfl⟩
    | exact .inl (name ‹_›)
    | exact .inl (call ‹_›)
    | rename_i next
      simp only [Bool.or_eq_true, beq_iff_eq, or_assoc] at next
      rcases next with rfl | rfl | rfl
  all_goals
    first
    | exact .inl rfl
    | exact .inr ⟨_, rfl, rfl⟩
    | exact .inl tame

def Quiet (kind : Nat → TokenKind) (F : Forest) : Prop :=
  Opened kind F ∧ Plain (F.labels kind)

section Rows

variable {P : Goal → List Nat → Forest → List Nat → Prop} {rows : List Forest}

theorem quiet_enter {kind : Nat → TokenKind} {r : Rule} {p : Nat} {below next : Forest}
    {others : List Forest} (inside : ∀ F ∈ below :: next :: others, Quiet kind F) :
    ∀ F ∈ .node r p below next :: others, Quiet kind F := by
  obtain ⟨opened, plain⟩ := inside below (by simp)
  obtain ⟨opened', plain'⟩ := inside next (by simp)
  intro F member
  rcases List.mem_cons.mp member with rfl | member
  · exact ⟨⟨.inr (.inl plain), opened, opened'⟩, plain_cons (by simp) plain'⟩
  · exact inside F (by simp [member])

/-- Instructions that are tame leave quiet rows. -/
theorem quiet_items (quiet : ∀ g s F s', P g s F s' → g.Tame → Quiet R.kind F)
    (tame : TameItems items) (made : Made R P (items.map .item) s rows s') :
    ∀ F ∈ rows, Quiet R.kind F := by
  induction items generalizing s rows with
  | nil =>
    obtain ⟨rfl, -⟩ := made
    intro F member
    rw [List.mem_singleton.mp member]
    exact ⟨trivial, plain_nil⟩
  | cons x items ih =>
    have rest : TameItems items :=
      ⟨fun member => tame.1 (List.mem_cons_of_mem _ member),
        fun g member => tame.2 g (List.mem_cons_of_mem _ member)⟩
    match x, tame with
    | .enter r, _ =>
      obtain ⟨below, next, others, rfl, made⟩ := made
      exact quiet_enter (ih rest made)
    | .leave, _ =>
      obtain ⟨others, rfl, made⟩ := made
      intro F member
      rcases List.mem_cons.mp member with rfl | member
      · exact ⟨trivial, plain_nil⟩
      · exact ih rest made F member
    | .report p, _ => exact ih rest made
    | .endMark, tame => exact absurd List.mem_cons_self tame.1
    | .goal g, tame =>
      obtain ⟨G, s₁, H, others, rfl, goal, made⟩ := made
      have inside := ih rest made
      obtain ⟨opened, plain⟩ := quiet g s G s₁ goal (tame.2 g List.mem_cons_self)
      obtain ⟨opened', plain'⟩ := inside H (by simp)
      intro F member
      rcases List.mem_cons.mp member with rfl | member
      · refine ⟨Forest.every_append.mpr ⟨opened, opened'⟩, ?_⟩
        rw [Forest.labels_append]
        exact plain_append plain plain'
      · exact inside F (by simp [member])

theorem quiet_entered {p : Nat} (quiet : ∀ g s F s', P g s F s' → g.Tame → Quiet R.kind F)
    (tame : TameItems items) (other : clauseOf (R.kind p) = none)
    (made : Made R P (entered.map (fun r => .item (.enter r)) ++ .take :: items.map .item) (p :: s)
      rows s') : ∀ F ∈ rows, Quiet R.kind F := by
  induction entered generalizing rows with
  | nil =>
    obtain ⟨_, _, G, others, same, rfl, made⟩ := made
    obtain ⟨rfl, rfl⟩ := List.cons.inj same
    have inside := quiet_items quiet tame made
    obtain ⟨opened, plain⟩ := inside G (by simp)
    intro F member
    rcases List.mem_cons.mp member with rfl | member
    · refine ⟨opened, plain_cons ?_ plain⟩
      rintro k ⟨⟩
      exact other
    · exact inside F (by simp [member])
  | cons r entered ih =>
    obtain ⟨below, next, others, rfl, made⟩ := made
    exact quiet_enter (ih made)

theorem quiet_clause {p : Nat} {c : Rule}
    (quiet : ∀ g s F s', P g s F s' → g.Tame → Quiet R.kind F) (tame : TameItems items)
    (opens : clauseOf (R.kind p) = some c)
    (made : Made R P (.item (.enter c) :: .take :: items.map .item) (p :: s) [F] s') :
    Quiet R.kind F := by
  obtain ⟨below, next, _, same, _, _, G, others, taken, same', made⟩ := made
  obtain ⟨rfl, rfl⟩ := List.cons.inj same
  obtain ⟨rfl, rfl⟩ := List.cons.inj same'
  obtain ⟨rfl, rfl⟩ := List.cons.inj taken
  have inside := quiet_items quiet tame made
  obtain ⟨opened, plain⟩ := inside G (by simp)
  obtain ⟨opened', plain'⟩ := inside next (by simp)
  exact ⟨⟨.inr (.inr ⟨_, _, rfl, opens, plain⟩), opened, opened'⟩, plain_cons (by simp) plain'⟩

theorem quiet_of_made (quiet : ∀ g s F s', P g s F s' → g.Tame → Quiet R.kind F) (tame : g.Tame)
    (made : Made R P (R.moves g s) s [F] s') : Quiet R.kind F := by
  rcases made_cases made with ⟨its, planned, made⟩ | ⟨entered, its, p, rest, rfl, planned, made⟩ |
    ⟨_, rfl, _⟩
  · exact quiet_items quiet (tame_expand planned tame) made F (by simp)
  · have goals := tame_shift planned tame
    rcases entered_shift planned tame with other | ⟨c, opens, rfl⟩
    · exact quiet_entered quiet goals other made F (by simp)
    · exact quiet_clause quiet goals opens made
  · exact ⟨trivial, plain_nil⟩

/-- The last goal of a list of moves leaves the tokens that the list leaves. -/
theorem made_last {moves : List Move} (made : Made R P (moves ++ [.item (.goal g)]) s rows s') :
    ∃ s₁ F, P g s₁ F s' := by
  induction moves generalizing s rows with
  | nil =>
    obtain ⟨F, _, _, _, _, goal, _, rfl⟩ := made
    exact ⟨s, F, goal⟩
  | cons m moves ih =>
    match m, made with
    | .take, ⟨_, _, _, _, _, _, made⟩ => exact ih made
    | .item (.enter r), ⟨_, _, _, _, made⟩ => exact ih made
    | .item .leave, ⟨_, _, made⟩ => exact ih made
    | .item (.report p), made => exact ih made
    | .item .endMark, ⟨_, _, _, made⟩ => exact ih made
    | .item (.goal g'), ⟨_, _, _, _, _, _, made⟩ => exact ih made

end Rows

def Stops (R : Reading) (g : Goal) (s' : List Nat) : Prop :=
  g ∈ [Goal.clauses, .innerQuery] → peek (s'.map R.kind) ∉ clauseKinds

/-- A document is a query that ends at a token that opens no clause, and all that is left; `Q` is
known of the query. -/
def Leftover (R : Reading) (Q : List Nat → Forest → List Nat → Prop) (s : List Nat) (F : Forest) :
    Prop :=
  ∃ start query rest s₁, F = .node .query start (query ++ rest) .nil ∧ Q s query s₁ ∧
    query.labels R.kind = [.rule .innerQuery] ∧ query.leaves ++ s₁ = s ∧
      rest.leaves = s₁ ++ R.mark.toList ∧ peek (s₁.map R.kind) ∉ clauseKinds

structure Resumes (R : Reading) (g : Goal) (s : List Nat) (F : Forest) (s' : List Nat) :
    Prop where
  conforms : Conforms R g s F s'
  took : Took R g s F s'
  opened : Opened R.kind F
  plain : g.Tame → Plain (F.labels R.kind)
  stops : Stops R g s'

theorem clauses_stops (made : Made R (Resumes R) (R.moves .clauses s) s [F] s') :
    peek (s'.map R.kind) ∉ clauseKinds := by
  rcases made_cases made with ⟨its, planned, made⟩ | ⟨entered, its, p, rest, rfl, planned, made⟩ |
    ⟨rfl, _, rfl, _⟩
  · have ended : its = [] ∧ peek (s.map R.kind) ∉ clauseKinds := by
      simp only [plan, clausePlan] at planned
      split at planned
      all_goals simp_all [clauseKinds]
    obtain ⟨rfl, other⟩ := ended
    obtain ⟨_, rfl⟩ := made
    exact other
  -- Every clause has the goal for further clauses behind it, whatever went wrong inside.
  · have last : its.getLast? = some (.goal .clauses) := by
      simp only [plan, clausePlan] at planned
      split at planned
      all_goals simp only [Plan.shift.injEq, reduceCtorEq] at planned
      all_goals
        obtain ⟨-, rfl⟩ := planned
        rfl
    obtain ⟨front, rfl⟩ := List.getLast?_eq_some_iff.mp last
    rw [List.map_append, ← List.cons_append, ← List.append_assoc] at made
    obtain ⟨_, _, resumes⟩ := made_last made
    exact resumes.stops (by simp)
  · simp [peek, clauseKinds]

theorem innerQuery_stops (made : Made R (Resumes R) (R.moves .innerQuery s) s [F] s') :
    peek (s'.map R.kind) ∉ clauseKinds := by
  rw [moves_expand rfl] at made
  simp only [token, List.map_cons, List.map_nil, made_enter, made_goal, made_leave,
    made_nil] at made
  obtain ⟨_, _, rfl, _, _, _, rfl, _, _, _, _, rfl, _, _, _, _, rfl, _, _, _, _, rfl, clauses, rfl,
    rfl, rfl⟩ := made
  exact clauses.stops (by simp)

theorem query_leftover {Q : Goal → List Nat → Forest → List Nat → Prop} (unmarked : R.Unmarked s)
    (made : Made R (fun g s F s' => Resumes R g s F s' ∧ Q g s F s') (R.moves .query s) s [F] s') :
    Leftover R (Q .innerQuery) s F := by
  rw [moves_expand rfl] at made
  simp only [List.map_cons, List.map_nil, made_enter, made_goal, made_endMark, made_leave,
    made_nil] at made
  obtain ⟨_, _, rfl, query, s₁, _, rfl, ⟨inner, known⟩, behind, s₂, _, rfl, ⟨trailing, _⟩, _, rfl,
    rfl, rfl, rfl⟩ := made
  have covers := inner.took.1 (by simp)
  have left : behind.leaves = s₁ := by
    obtain ⟨taken, _⟩ := trailing.took.1 (by simp)
    have all := trailing.took.2.1 (by simp) (unmarked_of_covers covers unmarked)
    rwa [all, List.append_nil] at taken
  have marked : (R.mark.elim Forest.nil (.leaf · .nil)).leaves = R.mark.toList := by
    cases R.mark <;> rfl
  refine ⟨_, query, _, s₁, rfl, known, inner.conforms.form, covers.1, ?_, inner.stops (by simp)⟩
  rw [Forest.leaves_append, left, marked]

/-- The goals that are not tame enter no rule, the whole query aside. -/
theorem entered_query {r : Rule} (wild : ¬ g.Tame) (entered : .item (.enter r) ∈ R.moves g s) :
    r = .query := by
  revert entered
  apply moves_cases (Q := fun moves => .item (.enter r) ∈ moves → r = .query)
  · exact fun member => absurd member List.not_mem_nil
  · intro k₁ k₂
    cases g <;> simp only [Goal.Tame, not_true] at wild
    case query => simp [plan, Plan.moves]
    all_goals
      simp only [plan]
      split <;> simp [Plan.moves]

theorem resumes_of_made (made : Made R (Resumes R) (R.moves g s) s [F] s') :
    Resumes R g s F s' := by
  have quiet (tame : g.Tame) : Quiet R.kind F :=
    quiet_of_made (fun _ _ _ _ resumes tame => ⟨resumes.opened, resumes.plain tame⟩) tame made
  constructor
  case conforms => exact conforms_of_made (made.mono fun _ _ _ _ resumes => resumes.conforms)
  case took => exact took_of_made (made.mono fun _ _ _ _ resumes => resumes.took)
  case opened =>
    by_cases tame : g.Tame
    · exact (quiet tame).1
    · refine every_of_made (fun _ _ _ _ resumes => resumes.opened) ?_ made F (by simp)
      intro r entered _ _
      exact .inl (entered_query tame entered)
  case plain =>
    intro tame
    exact (quiet tame).2
  case stops =>
    intro member
    simp only [List.mem_cons, List.not_mem_nil, or_false] at member
    rcases member with rfl | rfl
    · exact clauses_stops made
    · exact innerQuery_stops made

end Grammar

end SoqlAssist
