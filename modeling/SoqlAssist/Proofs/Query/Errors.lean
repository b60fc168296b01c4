import SoqlAssist.Proofs.Query.Diagnostics

/-!
The errors of a parse in the order of the document. A problem is placed at the first token that is
left, and tokens are only ever taken from the left; so problems never go back, those at one position
are neighbours, and keeping the first of neighbours leaves one error for a position.
-/
namespace SoqlAssist

namespace Parse

open Grammar

variable {mark : Option Nat} {ending : Nat} {ps : List Nat} {events : List Event}
  {tokens : TokenStream}

/-- The first token that is left stands before the others and before the end. -/
theorem headD_le (increasing : (ps ++ [ending]).Pairwise (· < ·)) {i : Nat}
    (left : i ∈ ps ∨ i = ending) : ps.headD ending ≤ i := by
  cases ps with
  | nil =>
    rcases left with none | rfl
    · exact absurd none List.not_mem_nil
    · exact Nat.le_refl i
  | cons p ps =>
    have first := (List.pairwise_cons.mp increasing).1
    rcases left with taken | rfl
    · rcases List.mem_cons.mp taken with rfl | later
      · exact Nat.le_refl i
      · exact Nat.le_of_lt (first i (List.mem_append_left _ later))
    · exact Nat.le_of_lt (first i (by simp))

/-- Problems never go back. -/
theorem pairwise_problems (increasing : (ps ++ [ending]).Pairwise (· < ·)) :
    ((place mark ending ps events).filterMap Placed.problem?).Pairwise (·.1 ≤ ·.1) := by
  induction events generalizing ps with
  | nil => exact List.Pairwise.nil
  | cons event events ih =>
    cases event with
    | enter rule => exact ih increasing
    | token =>
      cases ps with
      | nil => exact ih increasing
      | cons p ps => exact ih (List.pairwise_cons.mp increasing).2
    | endMark =>
      cases mark with
      | none => exact ih increasing
      | some m => exact ih increasing
    | leave => exact ih increasing
    | problem p =>
      refine List.pairwise_cons.mpr ⟨fun x member => ?_, ih increasing⟩
      exact headD_le increasing (place_problem member)

/-- Where positions never go back, the first at each position are all that is kept. -/
theorem pairwise_firstPerPosition {α : Type} {found : List (Nat × α)} (last : Option Nat)
    (sorted : found.Pairwise (·.1 ≤ ·.1)) (after : ∀ i ∈ last, ∀ x ∈ found, i ≤ x.1) :
    (firstPerPosition last found).Pairwise (·.1 < ·.1) ∧
      ∀ i ∈ last, ∀ x ∈ firstPerPosition last found, i < x.1 := by
  induction found generalizing last with
  | nil => exact ⟨List.Pairwise.nil, fun _ _ _ member => absurd member List.not_mem_nil⟩
  | cons y found ih =>
    obtain ⟨j, a⟩ := y
    obtain ⟨first, sorted⟩ := List.pairwise_cons.mp sorted
    rw [firstPerPosition]
    split
    · exact ih last sorted fun i known x member => after i known x (List.mem_cons_of_mem _ member)
    · rename_i new
      obtain ⟨increasing, above⟩ := ih (some j) sorted (by simpa using first)
      refine ⟨List.pairwise_cons.mpr ⟨above j rfl, increasing⟩, fun i known x member => ?_⟩
      have lt : i < j := by
        have le : i ≤ j := after i known (j, a) List.mem_cons_self
        have other : i ≠ j := by
          rintro rfl
          exact new known
        omega
      rcases List.mem_cons.mp member with rfl | later
      · exact lt
      · exact Nat.lt_trans lt (above j rfl x later)

theorem ending_eq (tokens : TokenStream) :
    (Outline.ofTokens tokens).ending = (Outline.ofTokens tokens).mark.getD tokens.size := rfl

/-- The tokens that are read and the end stand in order. -/
theorem pairwise_shown_ending (tokens : TokenStream) :
    ((Outline.ofTokens tokens).shown.map (·.1) ++ [(Outline.ofTokens tokens).ending]).Pairwise
      (· < ·) := by
  have sorted := pairwise_positions tokens
  have inside : ∀ i ∈ (Outline.ofTokens tokens).positions, i < tokens.size := by
    intro i member
    obtain ⟨t, found, _⟩ := (mem_positions.mp member).1
    exact (Array.getElem?_eq_some_iff.mp found).1
  rw [ending_eq]
  rw [Outline.positions] at sorted inside
  cases marked : (Outline.ofTokens tokens).mark with
  | some m => rwa [marked] at sorted
  | none =>
    rw [marked, Option.toList_none, List.append_nil] at sorted inside
    refine List.pairwise_append.mpr ⟨sorted, List.pairwise_singleton _ _, ?_⟩
    intro i member j last
    rw [List.mem_singleton.mp last]
    exact inside i member

/-- A problem stands at a token that the grammar sees or at the end of the stream. -/
theorem shows_problem {i : Nat} {p : Problem}
    (member : (i, p) ∈ (trace tokens).filterMap Placed.problem?) :
    tokens.Shows i ∨ i = tokens.size := by
  have seen {i : Nat} (read : i ∈ (Outline.ofTokens tokens).positions) : tokens.Shows i :=
    (mem_positions.mp read).1
  rcases place_problem member with taken | rfl
  · exact .inl (seen (List.mem_append_left _ taken))
  · rw [ending_eq]
    cases marked : (Outline.ofTokens tokens).mark with
    | none => exact .inr rfl
    | some m => exact .inl (seen (List.mem_append_right _ (by simp [marked])))

end Parse

open Parse

/-- There is at most one error for a token, and errors come in the order of the document, each with
the place and the length of a token that the grammar sees, or at the end of the stream. -/
theorem errors_in_order (tokens : TokenStream) :
    ((parseTokens tokens).errors.map (·.position)).Pairwise (· < ·) ∧
      ∀ e ∈ (parseTokens tokens).errors,
        (∃ t, tokens[e.position]? = some t ∧ t.isHidden = false ∧ e.line = t.line ∧
          e.column = t.column ∧ e.length = if t.kind = .eof then 0 else t.text.length) ∨
        e.position = tokens.size ∧ e.line = 1 ∧ e.column = 0 ∧ e.length = 0 := by
  constructor
  · obtain ⟨increasing, _⟩ := pairwise_firstPerPosition none
      (pairwise_problems (pairwise_shown_ending tokens)) (by simp)
    rw [errors_parseTokens, List.map_map, List.pairwise_map]
    refine increasing.imp fun {x y} lt => ?_
    simpa only [Function.comp_apply, position_describe] using lt
  · intro e member
    rw [errors_parseTokens] at member
    obtain ⟨⟨i, p⟩, kept, rfl⟩ := List.mem_map.mp member
    simp only [position_describe]
    rcases shows_problem (mem_of_mem_firstPerPosition kept) with ⟨t, found, shown⟩ | rfl
    · refine .inl ⟨t, found, shown, ?_⟩
      simp only [describe, found]
      split <;> exact ⟨rfl, rfl, rfl⟩
    · refine .inr ⟨rfl, ?_⟩
      rw [describe, Array.getElem?_eq_none (Nat.le_refl _)]
      exact ⟨rfl, rfl, rfl⟩

/-- `FROM` alone, behind a blank and with no mark at the end. -/
def bareFrom : TokenStream :=
  #[⟨.whitespace, "  ", 0, 4, 0, .hidden⟩, ⟨.FROM, "from", 1, 4, 2, .visible⟩]

/-- The word that stands for `SELECT` and a column has one error, the missing object another. -/
theorem errors_in_order_bareFrom :
    ∃ first second, (parseTokens bareFrom).errors = [first, second] ∧
      first.position < second.position ∧
      (first.position = 1 ∧ first.line = 4 ∧ first.column = 2 ∧ first.length = 4) ∧
      second.position = bareFrom.size ∧ second.line = 1 ∧ second.column = 0 ∧
        second.length = 0 := by
  have listed : (parseTokens bareFrom).errors =
      [⟨"expected SELECT, found 'from'", 1, 4, 2, 4⟩,
        ⟨"expected object name, found <EOF>", 2, 1, 0, 0⟩] := by cbv
  obtain ⟨increasing, located⟩ := errors_in_order bareFrom
  rw [listed] at increasing located
  refine ⟨_, _, listed, ?_, ⟨rfl, ?_⟩, ?_⟩
  · exact (List.pairwise_cons.mp increasing).1 _ List.mem_cons_self
  · rcases located _ List.mem_cons_self with ⟨t, found, _, line, column, length⟩ | ⟨ending, _⟩
    · obtain rfl : (⟨.FROM, "from", 1, 4, 2, .visible⟩ : Token) = t := Option.some.inj found
      exact ⟨line, column, length⟩
    · exact absurd ending (by decide)
  · rcases located _ (List.mem_cons_of_mem _ List.mem_cons_self) with ⟨t, found, _⟩ | ending
    · have absent : bareFrom[2]? = none := rfl
      exact absurd (absent.symm.trans found) (by simp)
    · exact ending

end SoqlAssist
