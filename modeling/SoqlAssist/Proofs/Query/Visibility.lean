import Mathlib.Data.List.Basic
import SoqlAssist.Proofs.Query.Leaves
import SoqlAssist.Proofs.Tree.Relocation

/-!
Hidden tokens and parsing. The reader steps over hidden tokens, over one here and over many there,
and writes down the positions at which it stands. What it does with a stream and what it does with
the visible part both follow the kinds of the visible tokens, event by event; so going from the
visible part to the stream moves the positions of the tree and of the errors and nothing else.
-/
namespace SoqlAssist

namespace TokenStream

def shown (tokens : TokenStream) : TokenStream :=
  tokens.filter (!·.isHidden)

/-- The position of the visible token with a number, counted from zero. Past the last of them it is
the length of the stream. -/
def positionOf (tokens : TokenStream) (k : Nat) : Nat :=
  tokens.toList.findIdxNth (!·.isHidden) k

variable {tokens : TokenStream}

theorem size_shown : tokens.shown.size = tokens.toList.countP (!·.isHidden) := by
  rw [shown, ← Array.length_toList, Array.toList_filter, List.countP_eq_length_filter]

theorem getElem?_positionOf (tokens : TokenStream) (k : Nat) :
    tokens[tokens.positionOf k]? = tokens.shown[k]? := by
  have listed (ts : List Token) (k : Nat) :
      ts[ts.findIdxNth (!·.isHidden) k]? = (ts.filter (!·.isHidden))[k]? := by
    induction ts generalizing k with
    | nil => rfl
    | cons t ts ih =>
      cases hidden : t.isHidden with
      | true => simp [hidden, List.findIdxNth_cons_of_neg, ih]
      | false => cases k <;> simp [hidden, List.findIdxNth_cons_of_pos, ih]
  rw [← Array.getElem?_toList, positionOf, listed, shown, ← Array.getElem?_toList,
    Array.toList_filter]

theorem positionOf_size : tokens.positionOf tokens.shown.size = tokens.size := by
  rw [positionOf, List.findIdxNth_eq_length_of_ge_countP (Nat.le_of_eq size_shown.symm),
    Array.length_toList]

/-- Different numbers up to that of all visible tokens are different positions. -/
theorem positionOf_inj {i j : Nat} (first : i ≤ tokens.shown.size) (second : j ≤ tokens.shown.size) :
    tokens.positionOf i = tokens.positionOf j ↔ i = j := by
  rw [size_shown] at first second
  rw [positionOf, positionOf, List.findIdxNth_eq_findIdxNth_iff]
  omega

end TokenStream

def SyntaxError.relocate (f : Nat → Nat) (e : SyntaxError) : SyntaxError :=
  { e with position := f e.position }

namespace Parse

open Grammar

variable {f : Nat → Nat} {tokens : TokenStream}

/-- The visible tokens of a list are those that are left when the hidden ones are taken out. -/
theorem visible_eq_map (i j : Nat) (ts : List Token) :
    visible i ts = (visible j (ts.filter (!·.isHidden))).map fun x =>
      (i + ts.findIdxNth (!·.isHidden) (x.1 - j), x.2) := by
  induction ts generalizing i j with
  | nil => rfl
  | cons t ts ih =>
    cases hidden : t.isHidden with
    | true =>
      rw [visible, if_pos hidden, List.filter_cons_of_neg (by simp [hidden]), ih (i + 1) j]
      refine List.map_congr_left fun x _ => ?_
      rw [List.findIdxNth_cons_of_neg (by simp [hidden])]
      congr 1
      omega
    | false =>
      rw [visible, if_neg (by simp [hidden]), List.filter_cons_of_pos (by simp [hidden]), visible,
        if_neg (by simp [hidden]), List.map_cons, ih (i + 1) (j + 1)]
      congr 1
      · simp [hidden]
      · refine List.map_congr_left ?_
        rintro ⟨p, k⟩ member
        -- The first token is visible, so those behind it have greater numbers.
        obtain ⟨n, _, rfl, _⟩ := mem_visible.mp member
        have number : j + 1 + n - j = n + 1 := by omega
        rw [number, List.findIdxNth_cons_succ_of_pos (by simp [hidden])]
        congr 1
        simp only [Nat.add_sub_cancel_left]
        omega

def Outline.relocate (f : Nat → Nat) (o : Outline) : Outline :=
  ⟨o.shown.map fun x => (f x.1, x.2), o.mark.map f, f o.ending⟩

theorem ofTokens_eq_relocate (tokens : TokenStream) :
    Outline.ofTokens tokens = (Outline.ofTokens tokens.shown).relocate tokens.positionOf := by
  have listed : visible 0 tokens.toList =
      (visible 0 tokens.shown.toList).map fun x => (tokens.positionOf x.1, x.2) := by
    rw [visible_eq_map 0 0 tokens.toList, TokenStream.shown, Array.toList_filter]
    refine List.map_congr_left fun x _ => ?_
    rw [Nat.zero_add, Nat.sub_zero, TokenStream.positionOf]
  have mark : (visible 0 tokens.toList).find? (·.2 == .eof) =
      ((visible 0 tokens.shown.toList).find? (·.2 == .eof)).map
        fun x => (tokens.positionOf x.1, x.2) := by
    rw [listed, List.find?_map]
    rfl
  simp only [Outline.ofTokens, Outline.relocate, mark, Outline.mk.injEq]
  refine ⟨?_, ?_, ?_⟩
  · rw [listed, List.takeWhile_map]
    rfl
  · rw [Option.map_map, Option.map_map]
    rfl
  · cases (visible 0 tokens.shown.toList).find? (·.2 == .eof) with
    | none => exact TokenStream.positionOf_size.symm
    | some x => rfl

def Placed.relocate (f : Nat → Nat) : Placed → Placed
  | .step s => .step (s.relocate f)
  | .problem position p => .problem (f position) p

theorem headD_map (ps : List Nat) (ending : Nat) :
    (ps.map f).headD (f ending) = f (ps.headD ending) := by
  cases ps <;> rfl

/-- Events in moved places are moved events. -/
theorem place_relocate (mark : Option Nat) (ending : Nat) (ps : List Nat) (events : List Event) :
    place (mark.map f) (f ending) (ps.map f) events =
      (place mark ending ps events).map (Placed.relocate f) := by
  induction events generalizing ps with
  | nil => rfl
  | cons event events ih =>
    cases event with
    | enter rule => rw [place, place, List.map_cons, ih, headD_map, Placed.relocate,
        TreeStep.relocate]
    | token =>
      cases ps with
      | nil => exact ih []
      | cons p ps => exact congrArg _ (ih ps)
    | endMark =>
      cases mark with
      | none => exact ih ps
      | some m => exact congrArg _ (ih ps)
    | leave => exact congrArg _ (ih ps)
    | problem p => rw [place, place, List.map_cons, ih, headD_map, Placed.relocate]

/-- Problems are placed at the tokens that are left or at the end. -/
theorem place_problem {mark : Option Nat} {ending i : Nat} {ps : List Nat} {events : List Event}
    {p : Problem}
    (member : (i, p) ∈ (place mark ending ps events).filterMap Placed.problem?) :
    i ∈ ps ∨ i = ending := by
  induction events generalizing ps with
  | nil => simp [place] at member
  | cons event events ih =>
    cases event with
    | enter rule => exact ih (by simpa [place, Placed.problem?] using member)
    | token =>
      cases ps with
      | nil => exact ih (by simpa [place] using member)
      | cons q ps =>
        rcases ih (by simpa [place, Placed.problem?] using member) with left | last
        · exact .inl (List.mem_cons_of_mem _ left)
        · exact .inr last
    | endMark =>
      cases mark with
      | none => exact ih (by simpa [place] using member)
      | some m => exact ih (by simpa [place, Placed.problem?] using member)
    | leave => exact ih (by simpa [place, Placed.problem?] using member)
    | problem q =>
      simp only [place, List.filterMap_cons, Placed.problem?, List.mem_cons, Prod.mk.injEq]
        at member
      rcases member with ⟨rfl, rfl⟩ | member
      · cases ps with
        | nil => exact .inr rfl
        | cons q ps => exact .inl List.mem_cons_self
      · exact ih member

theorem trace_relocate (tokens : TokenStream) :
    trace tokens = (trace tokens.shown).map (Placed.relocate tokens.positionOf) := by
  simp only [trace]
  rw [ofTokens_eq_relocate]
  simp only [Outline.relocate, List.map_map, Function.comp_def]
  rw [← place_relocate, List.map_map]
  rfl

/-- The problems of a stream stand at its tokens or at its end. -/
theorem problem_le_size {i : Nat} {p : Problem}
    (member : (i, p) ∈ (trace tokens).filterMap Placed.problem?) : i ≤ tokens.size := by
  have bounded : ∀ i ∈ (Outline.ofTokens tokens).positions, i ≤ tokens.size := by
    intro i member
    obtain ⟨t, found, _⟩ := (mem_positions.mp member).1
    exact Nat.le_of_lt (Array.getElem?_eq_some_iff.mp found).1
  rcases place_problem member with taken | rfl
  · exact bounded i (List.mem_append_left _ taken)
  · have ending : (Outline.ofTokens tokens).ending =
        (Outline.ofTokens tokens).mark.getD tokens.size := rfl
    rw [ending]
    cases mark : (Outline.ofTokens tokens).mark with
    | none => exact Nat.le_refl _
    | some m => exact bounded m (List.mem_append_right _ (by simp [mark]))

/-- Where positions stay apart, neighbours at one position stay so. -/
theorem firstPerPosition_map {α : Type} {found : List (Nat × α)} {last : Option Nat} {bound : Nat}
    (apart : ∀ i ≤ bound, ∀ j ≤ bound, f i = f j ↔ i = j) (before : ∀ i ∈ last, i ≤ bound)
    (within : ∀ x ∈ found, x.1 ≤ bound) :
    firstPerPosition (last.map f) (found.map fun x => (f x.1, x.2)) =
      (firstPerPosition last found).map fun x => (f x.1, x.2) := by
  induction found generalizing last with
  | nil => rfl
  | cons x found ih =>
    obtain ⟨i, a⟩ := x
    have here : i ≤ bound := within (i, a) List.mem_cons_self
    have rest : ∀ x ∈ found, x.1 ≤ bound := fun x member => within x (List.mem_cons_of_mem _ member)
    have same : last.map f = some (f i) ↔ last = some i := by
      cases last with
      | none => simp
      | some j => simpa using apart j (before j rfl) i here
    rw [List.map_cons, firstPerPosition, firstPerPosition]
    by_cases repeated : last = some i
    · rw [if_pos (same.mpr repeated), if_pos repeated]
      exact ih before rest
    · rw [if_neg (mt same.mp repeated), if_neg repeated, List.map_cons]
      have next : ∀ j ∈ some i, j ≤ bound := by simpa using here
      exact congrArg _ (ih next rest)

/-- A problem reads the same at a visible token and at its number. -/
theorem describe_positionOf (tokens : TokenStream) (k : Nat) (p : Problem) :
    describe tokens (tokens.positionOf k) p =
      (describe tokens.shown k p).relocate tokens.positionOf := by
  rw [describe, describe, TokenStream.getElem?_positionOf]
  cases tokens.shown[k]? with
  | none => rfl
  | some t =>
    simp only
    split <;> rfl

end Parse

open Parse

/-- Parsing does not see hidden tokens: the tree and the errors of a stream are those of its visible
part, each position being that of the visible token with this number. -/
theorem parse_eq_relocate_shown (tokens : TokenStream) :
    (parseTokens tokens).tree = (parseTokens tokens.shown).tree.relocate tokens.positionOf ∧
      (parseTokens tokens).errors =
        (parseTokens tokens.shown).errors.map (SyntaxError.relocate tokens.positionOf) := by
  have steps : (trace tokens).filterMap Placed.step? =
      ((trace tokens.shown).filterMap Placed.step?).map
        (TreeStep.relocate tokens.positionOf) := by
    rw [trace_relocate, List.filterMap_map, List.map_filterMap]
    refine List.filterMap_congr fun x _ => ?_
    cases x <;> rfl
  have problems : (trace tokens).filterMap Placed.problem? =
      ((trace tokens.shown).filterMap Placed.problem?).map
        fun x => (tokens.positionOf x.1, x.2) := by
    rw [trace_relocate, List.filterMap_map, List.map_filterMap]
    refine List.filterMap_congr fun x _ => ?_
    cases x <;> rfl
  constructor
  · rw [tree_parseTokens, tree_parseTokens, steps, Tree.ofSteps_relocate]
  · have within : ∀ x ∈ (trace tokens.shown).filterMap Placed.problem?,
        x.1 ≤ tokens.shown.size := fun x member => problem_le_size member
    have apart : ∀ i ≤ tokens.shown.size, ∀ j ≤ tokens.shown.size,
        tokens.positionOf i = tokens.positionOf j ↔ i = j :=
      fun i first j second => TokenStream.positionOf_inj first second
    have kept := firstPerPosition_map apart (by simp : ∀ i ∈ none, i ≤ tokens.shown.size) within
    rw [Option.map_none] at kept
    simp only [errors_parseTokens, problems, kept, List.map_map]
    refine List.map_congr_left fun x _ => ?_
    exact describe_positionOf tokens x.1 x.2

end SoqlAssist
