import SoqlAssist.Proofs.Grammar.Growth
import SoqlAssist.Proofs.Tree.Span

/-!
Reading loses no token. Every goal leaves a row whose tokens are those that it took, in order, and
whose rules start at the first token that was left when they were entered. The whole query takes all
tokens and the mark at the end.
-/
namespace SoqlAssist.Grammar

variable {R : Reading} {s s' : List Nat} {rows : List Forest} {moves : List Move}

/-- The row holds the tokens from `s` up to `s'`, and its rules start at their tokens. -/
def Covers (R : Reading) (s : List Nat) (F : Forest) (s' : List Nat) : Prop :=
  F.leaves ++ s' = s ∧ F.Starts R.limit (s' ++ R.mark.toList)

def RowsStart (limit : Nat) (rest : List Nat) : List Forest → Prop
  | [] => True
  | F :: others =>
    F.Starts limit (others.flatMap Forest.leaves ++ rest) ∧ RowsStart limit rest others

def Move.Inner : Move → Prop
  | .item .endMark | .item (.goal .query) => False
  | _ => True

/-- The end is the first token where none is left before its mark. -/
theorem headD_ending (s : List Nat) : s.headD R.ending = (s ++ R.mark.toList).headD R.limit := by
  cases s with
  | nil => cases marked : R.mark <;> simp [Reading.ending, marked]
  | cons p s => rfl

theorem covers_of_made {P : Goal → List Nat → Forest → List Nat → Prop}
    (covers : ∀ g s F s', P g s F s' → g ≠ .query → Covers R s F s')
    (inner : ∀ m ∈ moves, m.Inner) (made : Made R P moves s rows s') :
    rows.flatMap Forest.leaves ++ s' = s ∧ RowsStart R.limit (s' ++ R.mark.toList) rows := by
  induction moves generalizing s rows with
  | nil =>
    obtain ⟨rfl, rfl⟩ := made
    exact ⟨rfl, trivial, trivial⟩
  | cons m moves ih =>
    have rest : ∀ m ∈ moves, m.Inner := fun m member => inner m (List.mem_cons_of_mem _ member)
    match m, inner with
    | .item (.enter rule), _ =>
      obtain ⟨below, next, others, rfl, made⟩ := made
      obtain ⟨same, below_starts, next_starts, others_start⟩ := ih rest made
      simp only [List.flatMap_cons, List.append_assoc] at same below_starts
      refine ⟨by simpa [Forest.leaves] using same, ⟨?_, below_starts, next_starts⟩, others_start⟩
      rw [headD_ending, ← same]
      simp only [List.append_assoc]
    | .item .leave, _ =>
      obtain ⟨others, rfl, made⟩ := made
      obtain ⟨same, start⟩ := ih rest made
      exact ⟨same, trivial, start⟩
    | .item (.report p), _ => exact ih rest made
    | .item .endMark, inner => exact absurd (inner _ List.mem_cons_self) id
    | .take, _ =>
      obtain ⟨p, left, F, others, rfl, rfl, made⟩ := made
      obtain ⟨same, start⟩ := ih rest made
      exact ⟨congrArg (p :: ·) same, start⟩
    | .item (.goal g), inner =>
      obtain ⟨F, s₁, G, others, rfl, goal, made⟩ := made
      have partial_ : g ≠ .query := by
        rintro rfl
        exact inner _ List.mem_cons_self
      obtain ⟨same, G_starts, others_start⟩ := ih rest made
      obtain ⟨taken, F_starts⟩ := covers g s F s₁ goal partial_
      rw [List.flatMap_cons, List.append_assoc] at same
      refine ⟨?_, Forest.starts_append.mpr ⟨?_, G_starts⟩, others_start⟩
      · rw [← taken, ← same]
        simp
      · rw [← same] at F_starts
        simpa using F_starts

/-- The whole query aside, no goal reads a query or takes the mark. -/
theorem inner_moves {g : Goal} (partial_ : g ≠ .query) : ∀ m ∈ R.moves g s, m.Inner := by
  refine moves_cases (Q := fun moves => ∀ m ∈ moves, m.Inner) (by simp) fun k₁ k₂ => ?_
  cases g <;>
    simp only [plan, clausePlan, comparisonPlan, valuePlan, withPlan, failed] <;>
    (repeat' split) <;>
    simp_all [Plan.moves, Move.Inner, token, callTail]

def Reading.Unmarked (R : Reading) (s : List Nat) : Prop := ∀ p ∈ s, R.kind p ≠ .eof

/-- What goals take: all but the whole query take a part of what is left; behind a query all that is
left is taken; a whole query is one tree over all tokens and the mark. -/
def Took (R : Reading) (g : Goal) (s : List Nat) (F : Forest) (s' : List Nat) : Prop :=
  (g ≠ .query → Covers R s F s') ∧
    (g ∈ [Goal.trailing, .skipRest] → R.Unmarked s → s' = []) ∧
      (g = .query → R.Unmarked s → F.leaves = s ++ R.mark.toList ∧ F.Starts R.limit [] ∧
        ∃ below, F = .node .query (s.headD R.ending) below .nil)

theorem unmarked_of_covers {F : Forest} (covers : Covers R s F s') (unmarked : R.Unmarked s) :
    R.Unmarked s' := by
  intro p member
  refine unmarked p ?_
  rw [← covers.1]
  exact List.mem_append_right _ member

/-- Behind a query, reading stops only at the end. -/
theorem nothing_left {g : Goal} {F : Forest} (behind : g ∈ [Goal.trailing, .skipRest])
    (unmarked : R.Unmarked s) (made : Made R (Took R) (R.moves g s) s [F] s') : s' = [] := by
  simp only [List.mem_cons, List.not_mem_nil, or_false] at behind
  cases s with
  | nil =>
    have moves : R.moves g [] = [] := by
      rcases behind with rfl | rfl <;> rfl
    rw [moves] at made
    exact made.2
  | cons p s =>
    have visible : R.kind p ≠ .eof := unmarked p List.mem_cons_self
    rcases behind with rfl | rfl
    · have planned (k₂ : TokenKind) : plan .trailing (R.kind p) k₂ =
          .expand [.report .trailing, Goal.skipRest] := by
        simp [plan, visible]
      rw [moves_expand (planned _)] at made
      obtain ⟨_, _, _, _, took, _, rfl⟩ := made_goal.mp made
      exact took.2.1 (by simp) unmarked
    · have planned (k₂ : TokenKind) : plan .skipRest (R.kind p) k₂ =
          .shift [] [Goal.skipRest] := by
        simp [plan, visible]
      rw [moves_shift (planned _)] at made
      obtain ⟨_, _, rest⟩ := made_take.mp made
      obtain ⟨_, _, _, _, took, _, rfl⟩ := made_goal.mp rest
      exact took.2.1 (by simp) fun q member => unmarked q (List.mem_cons_of_mem _ member)

/-- A whole query is a query, what is behind it, and the mark. -/
theorem whole_query {F : Forest} (unmarked : R.Unmarked s)
    (made : Made R (Took R) (R.moves .query s) s [F] s') :
    F.leaves = s ++ R.mark.toList ∧ F.Starts R.limit [] ∧
      ∃ below, F = .node .query (s.headD R.ending) below .nil := by
  rw [moves_expand (by rfl)] at made
  simp only [List.map_cons, List.map_nil, made_enter, made_goal, made_endMark, made_leave,
    made_nil] at made
  obtain ⟨_, _, rfl, query, s₁, _, rfl, inner, behind, s₂, _, rfl, trailing, _, rfl, rfl, rfl,
    rfl⟩ := made
  have marked : (R.mark.elim Forest.nil (.leaf · .nil)).leaves = R.mark.toList ∧
      (R.mark.elim Forest.nil (.leaf · .nil)).Starts R.limit [] := by
    cases R.mark with
    | none => exact ⟨rfl, trivial⟩
    | some m => exact ⟨rfl, trivial⟩
  obtain ⟨taken, inner_starts⟩ := inner.1 (by simp)
  obtain ⟨left, behind_starts⟩ := trailing.1 (by simp)
  obtain rfl := trailing.2.1 (by simp) (unmarked_of_covers ⟨taken, inner_starts⟩ unmarked)
  rw [List.append_nil] at left
  have leaves : (query ++ (behind ++ R.mark.elim Forest.nil (.leaf · .nil))).leaves =
      s ++ R.mark.toList := by
    rw [Forest.leaves_append, Forest.leaves_append, marked.1, left, ← taken, List.append_assoc]
  refine ⟨?_, ⟨?_, ?_, trivial⟩, _, rfl⟩
  · rw [Forest.leaves, leaves, Forest.leaves, List.append_nil]
  · rw [headD_ending, leaves, Forest.leaves, List.append_nil, List.append_nil]
  · simp only [Forest.leaves, List.append_nil, Forest.starts_append, Forest.leaves_append,
      marked.1, left]
    exact ⟨inner_starts, by simpa using behind_starts, marked.2⟩

theorem took_of_made {g : Goal} {F : Forest}
    (made : Made R (Took R) (R.moves g s) s [F] s') : Took R g s F s' := by
  refine ⟨fun inner => ?_, fun behind unmarked => nothing_left behind unmarked made, ?_⟩
  · obtain ⟨same, start, _⟩ :=
      covers_of_made (fun _ _ _ _ took => took.1) (inner_moves inner) made
    simp only [List.flatMap_cons, List.flatMap_nil, List.append_nil] at same
    exact ⟨same, start⟩
  · rintro rfl unmarked
    exact whole_query unmarked made

end SoqlAssist.Grammar
