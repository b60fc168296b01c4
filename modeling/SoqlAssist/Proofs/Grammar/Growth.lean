import SoqlAssist.Proofs.Grammar.Run
import SoqlAssist.Proofs.Tree.Layout
import SoqlAssist.Proofs.Grammar.Outline

/-!
The forest that reading builds, told goal by goal. A list of instructions that closes more rules
than it opens leaves one row of trees for the rule that is open and one for each rule that it goes
back to; a goal leaves one row. Whatever the table of goals keeps is then true of every forest that
a goal leaves.
-/
namespace SoqlAssist.Grammar

open Parse

/-- What is read: the kinds of the tokens by position, the mark at the end and the length. -/
structure Reading where
  kind : Nat → TokenKind
  mark : Option Nat
  limit : Nat

def Reading.ending (R : Reading) : Nat := R.mark.getD R.limit

inductive Move where
  | take
  | item (x : Item)

/-- What a goal does when the visible tokens at `s` remain. -/
def Reading.moves (R : Reading) (g : Goal) (s : List Nat) : List Move :=
  match plan g (peek (s.map R.kind)) (peek ((s.map R.kind).drop 1)), s with
  | .expand items, _ => items.map .item
  | .shift _ _, [] => []
  | .shift entered items, _ :: _ =>
    entered.map (fun r => .item (.enter r)) ++ .take :: items.map .item

def Plan.moves : Plan → List Move
  | .expand items => items.map .item
  | .shift entered items => entered.map (fun r => .item (.enter r)) ++ .take :: items.map .item

/-- Carrying out moves leaves these rows, the innermost first, and the tokens at `s'`. -/
inductive Grows (R : Reading) : List Move → List Nat → List Forest → List Nat → Prop where
  | nil {s} : Grows R [] s [.nil] s
  | enter {rule moves s below next others s'}
      (inside : Grows R moves s (below :: next :: others) s') :
      Grows R (.item (.enter rule) :: moves) s
        (.node rule (s.headD R.ending) below next :: others) s'
  | leave {moves s others s'} (after : Grows R moves s others s') :
      Grows R (.item .leave :: moves) s (.nil :: others) s'
  | report {p moves s rows s'} (after : Grows R moves s rows s') :
      Grows R (.item (.report p) :: moves) s rows s'
  | endMark {moves s F others s'} (after : Grows R moves s (F :: others) s') :
      Grows R (.item .endMark :: moves) s ((R.mark.elim F (.leaf · F)) :: others) s'
  | take {p moves s F others s'} (after : Grows R moves s (F :: others) s') :
      Grows R (.take :: moves) (p :: s) (.leaf p F :: others) s'
  | goal {g moves s F s₁ G others s'} (inside : Grows R (R.moves g s) s [F] s₁)
      (after : Grows R moves s₁ (G :: others) s') :
      Grows R (.item (.goal g) :: moves) s ((F ++ G) :: others) s'

/-- The rows that moves leave when each goal leaves a row as `P` says. -/
def Made (R : Reading) (P : Goal → List Nat → Forest → List Nat → Prop) :
    List Move → List Nat → List Forest → List Nat → Prop
  | [], s, rows, s' => rows = [.nil] ∧ s' = s
  | .item (.enter rule) :: moves, s, rows, s' =>
    ∃ below next others, rows = .node rule (s.headD R.ending) below next :: others ∧
      Made R P moves s (below :: next :: others) s'
  | .item .leave :: moves, s, rows, s' =>
    ∃ others, rows = .nil :: others ∧ Made R P moves s others s'
  | .item (.report _) :: moves, s, rows, s' => Made R P moves s rows s'
  | .item .endMark :: moves, s, rows, s' =>
    ∃ F others, rows = (R.mark.elim F (.leaf · F)) :: others ∧ Made R P moves s (F :: others) s'
  | .take :: moves, s, rows, s' =>
    ∃ p rest F others, s = p :: rest ∧ rows = .leaf p F :: others ∧
      Made R P moves rest (F :: others) s'
  | .item (.goal g) :: moves, s, rows, s' =>
    ∃ F s₁ G others, rows = (F ++ G) :: others ∧ P g s F s₁ ∧ Made R P moves s₁ (G :: others) s'

variable {R : Reading} {P : Goal → List Nat → Forest → List Nat → Prop} {moves : List Move}
  {s s' : List Nat} {rows : List Forest} {g : Goal}

section Made

variable {F : Forest} {others : List Forest} {rule : Rule} {p : Nat}

@[simp] theorem made_nil : Made R P [] s [F] s' ↔ F = .nil ∧ s' = s := by
  simp only [Made, List.cons.injEq, and_true]

@[simp] theorem made_enter : Made R P (.item (.enter rule) :: moves) s (F :: others) s' ↔
    ∃ below next, F = .node rule (s.headD R.ending) below next ∧
      Made R P moves s (below :: next :: others) s' := by
  constructor
  · rintro ⟨below, next, _, same, made⟩
    obtain ⟨rfl, rfl⟩ := List.cons.inj same
    exact ⟨below, next, rfl, made⟩
  · rintro ⟨below, next, rfl, made⟩
    exact ⟨below, next, others, rfl, made⟩

@[simp] theorem made_leave : Made R P (.item .leave :: moves) s (F :: others) s' ↔
    F = .nil ∧ Made R P moves s others s' := by
  constructor
  · rintro ⟨_, same, made⟩
    obtain ⟨rfl, rfl⟩ := List.cons.inj same
    exact ⟨rfl, made⟩
  · rintro ⟨rfl, made⟩
    exact ⟨others, rfl, made⟩

@[simp] theorem made_report {problem : Problem} :
    Made R P (.item (.report problem) :: moves) s rows s' ↔ Made R P moves s rows s' := .rfl

@[simp] theorem made_endMark : Made R P (.item .endMark :: moves) s (F :: others) s' ↔
    ∃ G, F = R.mark.elim G (.leaf · G) ∧ Made R P moves s (G :: others) s' := by
  constructor
  · rintro ⟨G, _, same, made⟩
    obtain ⟨rfl, rfl⟩ := List.cons.inj same
    exact ⟨G, rfl, made⟩
  · rintro ⟨G, rfl, made⟩
    exact ⟨G, others, rfl, made⟩

@[simp] theorem made_take : Made R P (.take :: moves) (p :: s) (F :: others) s' ↔
    ∃ G, F = .leaf p G ∧ Made R P moves s (G :: others) s' := by
  constructor
  · rintro ⟨_, _, G, _, taken, same, made⟩
    obtain ⟨rfl, rfl⟩ := List.cons.inj taken
    obtain ⟨rfl, rfl⟩ := List.cons.inj same
    exact ⟨G, rfl, made⟩
  · rintro ⟨G, rfl, made⟩
    exact ⟨p, s, G, others, rfl, rfl, made⟩

@[simp] theorem made_goal : Made R P (.item (.goal g) :: moves) s (F :: others) s' ↔
    ∃ G s₁ H, F = G ++ H ∧ P g s G s₁ ∧ Made R P moves s₁ (H :: others) s' := by
  constructor
  · rintro ⟨G, s₁, H, _, same, goal, made⟩
    obtain ⟨rfl, rfl⟩ := List.cons.inj same
    exact ⟨G, s₁, H, rfl, goal, made⟩
  · rintro ⟨G, s₁, H, rfl, goal, made⟩
    exact ⟨G, s₁, H, others, rfl, goal, made⟩

/-- What goals leave may be told with less detail. -/
theorem Made.mono {Q : Goal → List Nat → Forest → List Nat → Prop}
    (weaker : ∀ g s F s', P g s F s' → Q g s F s') (made : Made R P moves s rows s') :
    Made R Q moves s rows s' := by
  induction moves generalizing s rows with
  | nil => exact made
  | cons m moves ih =>
    match m with
    | .item (.enter r) =>
      obtain ⟨below, next, others, same, made⟩ := made
      exact ⟨below, next, others, same, ih made⟩
    | .item .leave =>
      obtain ⟨others, same, made⟩ := made
      exact ⟨others, same, ih made⟩
    | .item (.report p) => exact ih made
    | .item .endMark =>
      obtain ⟨F, others, same, made⟩ := made
      exact ⟨F, others, same, ih made⟩
    | .take =>
      obtain ⟨p, rest, F, others, taken, same, made⟩ := made
      exact ⟨p, rest, F, others, taken, same, ih made⟩
    | .item (.goal g) =>
      obtain ⟨F, s₁, G, others, same, goal, made⟩ := made
      exact ⟨F, s₁, G, others, same, weaker g s F s₁ goal, ih made⟩

end Made

/-- What one step through the table keeps, reading keeps. -/
theorem Grows.made (kept : ∀ g s F s', Made R P (R.moves g s) s [F] s' → P g s F s')
    (grows : Grows R moves s rows s') : Made R P moves s rows s' := by
  induction grows with
  | nil => exact ⟨rfl, rfl⟩
  | enter _ ih => exact ⟨_, _, _, rfl, ih⟩
  | leave _ ih => exact ⟨_, rfl, ih⟩
  | report _ ih => exact ih
  | endMark _ ih => exact ⟨_, _, rfl, ih⟩
  | take _ ih => exact ⟨_, _, _, _, rfl, rfl, ih⟩
  | goal _ _ ihInside ihAfter => exact ⟨_, _, _, _, rfl, kept _ _ _ _ ihInside, ihAfter⟩

theorem moves_expand {items : List Item}
    (planned : plan g (peek (s.map R.kind)) (peek ((s.map R.kind).drop 1)) = .expand items) :
    R.moves g s = items.map .item := by
  simp only [Reading.moves, planned]

theorem moves_shift_nil {entered : List Rule} {items : List Item}
    (planned : plan g .eof .eof = .shift entered items) : R.moves g [] = [] := by
  simp only [Reading.moves, List.map_nil, List.drop_nil, peek_nil, planned]

theorem moves_shift {p : Nat} {entered : List Rule} {items : List Item}
    (planned : plan g (R.kind p) (peek (s.map R.kind)) = .shift entered items) :
    R.moves g (p :: s) =
      entered.map (fun r => .item (.enter r)) ++ .take :: items.map .item := by
  simp only [Reading.moves, List.map_cons, List.drop_one, List.tail_cons, peek_cons, planned]

/-- A goal takes no token, takes one, or finds none to take. -/
theorem made_cases {F : Forest} (made : Made R P (R.moves g s) s [F] s') :
    (∃ items, plan g (peek (s.map R.kind)) (peek ((s.map R.kind).drop 1)) = .expand items ∧
      Made R P (items.map .item) s [F] s') ∨
    (∃ entered items p rest, s = p :: rest ∧
      plan g (R.kind p) (peek (rest.map R.kind)) = .shift entered items ∧
        Made R P (entered.map (fun r => .item (.enter r)) ++ .take :: items.map .item)
          (p :: rest) [F] s') ∨
    s = [] ∧ F = .nil ∧ s' = [] ∧ ∃ entered items, plan g .eof .eof = .shift entered items := by
  cases planned : plan g (peek (s.map R.kind)) (peek ((s.map R.kind).drop 1)) with
  | expand items =>
    rw [moves_expand planned] at made
    exact .inl ⟨items, rfl, made⟩
  | shift entered items =>
    cases s with
    | nil =>
      rw [moves_shift_nil planned, made_nil] at made
      exact .inr (.inr ⟨rfl, made.1, made.2, entered, items, planned⟩)
    | cons p rest =>
      rw [moves_shift planned] at made
      exact .inr (.inl ⟨entered, items, p, rest, rfl, planned, made⟩)

/-- What is true of no moves and of every entry of the table is true of what a goal does. -/
theorem moves_cases {Q : List Move → Prop} (empty : Q [])
    (planned : ∀ k₁ k₂, Q (plan g k₁ k₂).moves) : Q (R.moves g s) := by
  have entry := planned (peek (s.map R.kind)) (peek ((s.map R.kind).drop 1))
  rw [Reading.moves.eq_def]
  split
  · rename_i same
    rwa [same] at entry
  · exact empty
  · rename_i same
    rwa [same] at entry

section Balance

/-- How many more rules the instructions leave than they enter. -/
def surplus : List Item → Nat
  | [] => 0
  | .enter _ :: items => surplus items - 1
  | .leave :: items => surplus items + 1
  | _ :: items => surplus items

/-- Every rule that the instructions enter is left again. -/
def Balanced : List Item → Prop
  | [] => True
  | .enter _ :: items => 0 < surplus items ∧ Balanced items
  | _ :: items => Balanced items

theorem balanced_expand {k₁ k₂ : TokenKind} {items : List Item}
    (planned : plan g k₁ k₂ = .expand items) : Balanced items ∧ surplus items = 0 := by
  cases g <;>
    simp only [plan, clausePlan, comparisonPlan, valuePlan, withPlan, failed] at planned <;>
    (repeat' split at planned) <;>
    simp only [Plan.expand.injEq, reduceCtorEq] at planned <;>
    subst planned <;>
    simp [Balanced, surplus, token]

theorem balanced_shift {k₁ k₂ : TokenKind} {entered : List Rule} {items : List Item}
    (planned : plan g k₁ k₂ = .shift entered items) :
    Balanced items ∧ surplus items = entered.length := by
  cases g <;>
    simp only [plan, clausePlan, comparisonPlan, valuePlan, withPlan, failed] at planned <;>
    (repeat' split at planned) <;>
    simp only [Plan.shift.injEq, reduceCtorEq] at planned <;>
    rcases planned with ⟨rfl, rfl⟩ <;>
    simp [Balanced, surplus, token, callTail]

end Balance

/-- The steps of rows: each after the first goes on when a rule has been closed. -/
def rowSteps : List Forest → List TreeStep
  | [] => []
  | [F] => F.steps
  | F :: G :: others => F.steps ++ .finish :: rowSteps (G :: others)

section Rows

variable {F G below next : Forest} {others : List Forest} {p : Nat} {rule : Rule}

theorem rowSteps_append : rowSteps ((F ++ G) :: others) = F.steps ++ rowSteps (G :: others) := by
  cases others <;> simp [rowSteps]

theorem rowSteps_leaf : rowSteps (.leaf p F :: others) = .token p :: rowSteps (F :: others) := by
  cases others <;> simp [rowSteps, Forest.steps]

theorem rowSteps_node : rowSteps (.node rule p below next :: others) =
    .start rule p :: rowSteps (below :: next :: others) := by
  cases others <;> simp [rowSteps, Forest.steps]

theorem rowSteps_leave : rowSteps (.nil :: F :: others) = .finish :: rowSteps (F :: others) := rfl

end Rows

def Reading.steps (R : Reading) (s : List Nat) (stack : List Item) : List TreeStep :=
  (place R.mark R.ending s (run (s.map R.kind) stack)).filterMap Placed.step?

section Steps

variable {stack items : List Item} {rule : Rule}

theorem steps_enter :
    R.steps s (.enter rule :: stack) = .start rule (s.headD R.ending) :: R.steps s stack := by
  rw [Reading.steps, run_enter]
  rfl

theorem steps_leave : R.steps s (.leave :: stack) = .finish :: R.steps s stack := by
  rw [Reading.steps, run_leave]
  rfl

theorem steps_report {p : Problem} : R.steps s (.report p :: stack) = R.steps s stack := by
  rw [Reading.steps, run_report]
  rfl

theorem steps_endMark :
    R.steps s (.endMark :: stack) = (R.mark.elim [] ([.token ·])) ++ R.steps s stack := by
  rw [Reading.steps, run_endMark, Reading.steps]
  cases R.mark with
  | none => simp only [place, Option.elim_none, List.nil_append]
  | some m =>
    simp only [place, Option.elim_some, List.singleton_append]
    rfl

theorem steps_expand
    (planned : plan g (peek (s.map R.kind)) (peek ((s.map R.kind).drop 1)) = .expand items) :
    R.steps s (.goal g :: stack) = R.steps s (items ++ stack) := by
  rw [Reading.steps, run_expand planned, Reading.steps]

theorem steps_shift_nil {entered : List Rule}
    (planned : plan g .eof .eof = .shift entered items) :
    R.steps [] (.goal g :: stack) = R.steps [] stack := by
  rw [Reading.steps, List.map_nil, run_shift_nil planned, Reading.steps, List.map_nil]

theorem place_entered (entered : List Rule) (events : List Event) :
    (place R.mark R.ending s (entered.map .enter ++ events)).filterMap Placed.step? =
      entered.map (.start · (s.headD R.ending)) ++
        (place R.mark R.ending s events).filterMap Placed.step? := by
  rw [place_enters, List.filterMap_append, step?_starts]

theorem steps_shift {p : Nat} {entered : List Rule}
    (planned : plan g (R.kind p) (peek (s.map R.kind)) = .shift entered items) :
    R.steps (p :: s) (.goal g :: stack) =
      entered.map (.start · p) ++ .token p :: R.steps s (items ++ stack) := by
  rw [Reading.steps, List.map_cons, run_shift planned, place_entered]
  rfl

end Steps

/-- Rules entered before a token is taken close around it. -/
theorem grows_entered (entered : List Rule) (grows : Grows R moves s rows s')
    (enough : entered.length < rows.length) :
    ∃ rows', Grows R (entered.map (fun r => .item (.enter r)) ++ moves) s rows' s' ∧
      rows'.length + entered.length = rows.length ∧
      rowSteps rows' = entered.map (.start · (s.headD R.ending)) ++ rowSteps rows := by
  induction entered with
  | nil => exact ⟨rows, grows, rfl, rfl⟩
  | cons rule entered ih =>
    rw [List.length_cons] at enough
    obtain ⟨rows', inside, length, steps⟩ := ih (by omega)
    obtain ⟨below, tail, rfl⟩ := List.exists_cons_of_length_pos (l := rows') (by omega)
    rw [List.length_cons] at length
    obtain ⟨next, others, rfl⟩ := List.exists_cons_of_length_pos (l := tail) (by omega)
    refine ⟨_, .enter inside, ?_, ?_⟩
    · simp only [List.length_cons] at length ⊢
      omega
    · rw [rowSteps_node, steps]
      rfl

/-- The instructions leave rows, one more than the rules that they leave, and the steps of carrying
them out are those of the rows. -/
def Settles (R : Reading) (items : List Item) (s : List Nat) : Prop :=
  ∃ rows s', Grows R (items.map .item) s rows s' ∧ rows.length = surplus items + 1 ∧
    s'.length ≤ s.length ∧ ∀ stack, R.steps s (items ++ stack) = rowSteps rows ++ R.steps s' stack

def Leaves (R : Reading) (g : Goal) (s : List Nat) (F : Forest) (s' : List Nat) : Prop :=
  Grows R (R.moves g s) s [F] s' ∧ s'.length ≤ s.length ∧
    ∀ stack, R.steps s (.goal g :: stack) = F.steps ++ R.steps s' stack

section Settles

variable {items its : List Item} {rule : Rule} {entered : List Rule} {p : Nat} {F : Forest}
  {s₁ : List Nat}

theorem Settles.enter (settles : Settles R items s) (left : 0 < surplus items) :
    Settles R (.enter rule :: items) s := by
  obtain ⟨rows, s', grows, length, le, steps⟩ := settles
  obtain ⟨below, tail, rfl⟩ := List.exists_cons_of_length_pos (l := rows) (by omega)
  rw [List.length_cons] at length
  obtain ⟨next, others, rfl⟩ := List.exists_cons_of_length_pos (l := tail) (by omega)
  rw [List.length_cons] at length
  refine ⟨_, s', .enter grows, ?_, le, fun stack => ?_⟩
  · simp only [List.length_cons, surplus]
    omega
  · rw [List.cons_append, steps_enter, steps, rowSteps_node, List.cons_append]

theorem Settles.leave (settles : Settles R items s) : Settles R (.leave :: items) s := by
  obtain ⟨rows, s', grows, length, le, steps⟩ := settles
  obtain ⟨F, others, rfl⟩ := List.exists_cons_of_length_pos (l := rows) (by omega)
  refine ⟨_, s', .leave grows, ?_, le, fun stack => ?_⟩
  · rw [List.length_cons, length, surplus]
  · rw [List.cons_append, steps_leave, steps, rowSteps_leave, List.cons_append]

theorem Settles.report {p : Problem} (settles : Settles R items s) :
    Settles R (.report p :: items) s := by
  obtain ⟨rows, s', grows, length, le, steps⟩ := settles
  refine ⟨rows, s', .report grows, length, le, fun stack => ?_⟩
  rw [List.cons_append, steps_report, steps]

theorem Settles.endMark (settles : Settles R items s) : Settles R (.endMark :: items) s := by
  obtain ⟨rows, s', grows, length, le, steps⟩ := settles
  obtain ⟨F, others, rfl⟩ := List.exists_cons_of_length_pos (l := rows) (by omega)
  refine ⟨_, s', .endMark grows, length, le, fun stack => ?_⟩
  rw [List.cons_append, steps_endMark, steps]
  cases R.mark with
  | none => rfl
  | some m => simp only [Option.elim_some, rowSteps_leaf, List.cons_append, List.nil_append]

theorem Settles.goal (leaves : Leaves R g s F s₁) (settles : Settles R items s₁) :
    Settles R (.goal g :: items) s := by
  obtain ⟨inside, le₁, first⟩ := leaves
  obtain ⟨rows, s', grows, length, le, steps⟩ := settles
  obtain ⟨G, others, rfl⟩ := List.exists_cons_of_length_pos (l := rows) (by omega)
  refine ⟨_, s', .goal inside grows, length, Nat.le_trans le le₁, fun stack => ?_⟩
  rw [List.cons_append, first, steps, rowSteps_append, List.append_assoc]

theorem leaves_expand
    (planned : plan g (peek (s.map R.kind)) (peek ((s.map R.kind).drop 1)) = .expand its)
    (settles : Settles R its s) : ∃ F s₁, Leaves R g s F s₁ := by
  obtain ⟨rows, s₁, grows, length, le, steps⟩ := settles
  rw [(balanced_expand planned).2, List.length_eq_one_iff] at length
  obtain ⟨F, rfl⟩ := length
  refine ⟨F, s₁, moves_expand planned ▸ grows, le, fun stack => ?_⟩
  rw [steps_expand planned, steps, rowSteps]

theorem leaves_shift_nil (planned : plan g .eof .eof = .shift entered its) :
    Leaves R g [] .nil [] := by
  refine ⟨moves_shift_nil planned ▸ .nil, Nat.le_refl _, fun stack => ?_⟩
  rw [steps_shift_nil planned, Forest.steps, List.nil_append]

theorem leaves_shift (planned : plan g (R.kind p) (peek (s.map R.kind)) = .shift entered its)
    (settles : Settles R its s) : ∃ F s₁, Leaves R g (p :: s) F s₁ := by
  obtain ⟨rows, s₁, grows, length, le, steps⟩ := settles
  rw [(balanced_shift planned).2] at length
  obtain ⟨G, others, rfl⟩ := List.exists_cons_of_length_pos (l := rows) (by omega)
  have taken : Grows R (.take :: its.map .item) (p :: s) (.leaf p G :: others) s₁ := .take grows
  rw [List.length_cons] at length
  obtain ⟨rows', grown, count, begun⟩ := grows_entered entered taken (by
    rw [List.length_cons]
    omega)
  rw [List.length_cons] at count
  obtain ⟨F, rfl⟩ := List.length_eq_one_iff.mp (show rows'.length = 1 by omega)
  refine ⟨F, s₁, moves_shift planned ▸ grown, Nat.le_succ_of_le le, fun stack => ?_⟩
  rw [rowSteps, rowSteps_leaf] at begun
  rw [steps_shift planned, begun, steps, List.append_assoc]
  rfl

/-- Balanced instructions settle: the rank bounds the goals that take no token, the number of
tokens those that do. -/
theorem settles (R : Reading) (items : List Item) (s : List Nat) (balanced : Balanced items) :
    Settles R items s := by
  match items with
  | [] => exact ⟨[.nil], s, .nil, rfl, Nat.le_refl _, fun _ => rfl⟩
  | .enter rule :: items => exact (settles R items s balanced.2).enter balanced.1
  | .leave :: items => exact (settles R items s balanced).leave
  | .report p :: items => exact (settles R items s balanced).report
  | .endMark :: items => exact (settles R items s balanced).endMark
  | .goal g :: items =>
    obtain ⟨F, s₁, leaves⟩ : ∃ F s₁, Leaves R g s F s₁ := by
      cases planned : plan g (peek (s.map R.kind)) (peek ((s.map R.kind).drop 1)) with
      | expand its => exact leaves_expand planned (settles R its s (balanced_expand planned).1)
      | shift entered its =>
        cases s with
        | nil => exact ⟨_, _, leaves_shift_nil planned⟩
        | cons p s => exact leaves_shift planned (settles R its s (balanced_shift planned).1)
    have shorter := leaves.2.1
    exact .goal leaves (settles R items s₁ balanced)
termination_by shiftRank * s.length + rankOf items
decreasing_by
  · exact Nat.add_lt_add_left (rankOf_lt_cons _ _) _
  · exact Nat.add_lt_add_left (rankOf_lt_cons _ _) _
  · exact Nat.add_lt_add_left (rankOf_lt_cons _ _) _
  · exact Nat.add_lt_add_left (rankOf_lt_cons _ _) _
  · have smaller := rankOf_expand_lt planned
    have whole : rankOf (.goal g :: items) = g.rank + rankOf items := rfl
    omega
  · have bound := rankOf_shift_le planned
    have positive := rankOf_lt_cons (.goal g) items
    rw [List.length_cons, Nat.mul_succ]
    omega
  · have smaller := rankOf_lt_cons (.goal g) items
    have fewer := Nat.mul_le_mul_left shiftRank shorter
    omega

end Settles

end SoqlAssist.Grammar
