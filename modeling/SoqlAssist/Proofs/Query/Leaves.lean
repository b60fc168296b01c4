import SoqlAssist.Proofs.Grammar.Coverage
import SoqlAssist.Proofs.Query.Reader

/-!
The tokens of a parse. The tree of a stream is one tree of the grammar over the visible tokens up to
the first visible `eof`; its tokens, read in depth or in the order of the array, are these.
-/
namespace SoqlAssist

open Grammar Parse

namespace Parse

/-- Visible tokens are listed with their positions and kinds, in order. -/
theorem mem_visible {i n : Nat} {k : TokenKind} {ts : List Token} :
    (i, k) ∈ visible n ts ↔
      ∃ j t, i = n + j ∧ ts[j]? = some t ∧ t.isHidden = false ∧ t.kind = k := by
  induction ts generalizing n with
  | nil => simp [visible]
  | cons t ts ih =>
    have later : (∃ j u, i = n + 1 + j ∧ ts[j]? = some u ∧ u.isHidden = false ∧ u.kind = k) ↔
        ∃ j u, i = n + (j + 1) ∧ ts[j]? = some u ∧ u.isHidden = false ∧ u.kind = k := by
      simp only [Nat.add_assoc, Nat.add_comm 1]
    rw [visible]
    constructor
    · intro member
      split at member
      · obtain ⟨j, u, same, found⟩ := later.mp (ih.mp member)
        exact ⟨j + 1, u, same, by simpa using found⟩
      · rename_i shown
        rcases List.mem_cons.mp member with same | member
        · obtain ⟨rfl, rfl⟩ := Prod.mk.inj same
          exact ⟨0, t, rfl, rfl, by simpa using shown, rfl⟩
        · obtain ⟨j, u, same, found⟩ := later.mp (ih.mp member)
          exact ⟨j + 1, u, same, by simpa using found⟩
    · rintro ⟨j, u, same, found, shown, kind⟩
      cases j with
      | zero =>
        obtain rfl : t = u := by simpa using found
        simp [shown, kind, same]
      | succ j =>
        have member := ih.mpr (later.mpr ⟨j, u, same, by simpa using found, shown, kind⟩)
        split
        · exact member
        · exact List.mem_cons_of_mem _ member

theorem pairwise_visible (n : Nat) (ts : List Token) :
    (visible n ts).Pairwise (fun x y => x.1 < y.1) := by
  induction ts generalizing n with
  | nil => exact List.Pairwise.nil
  | cons t ts ih =>
    rw [visible]
    split
    · exact ih (n + 1)
    · refine List.pairwise_cons.mpr ⟨?_, ih (n + 1)⟩
      rintro ⟨i, k⟩ member
      obtain ⟨j, _, rfl, _⟩ := mem_visible.mp member
      show n < n + 1 + j
      omega

/-- The tokens up to the first `eof`, that one included, are those before which there is none. -/
theorem mem_takeWhile_find {x : Nat × TokenKind} {l : List (Nat × TokenKind)}
    (sorted : l.Pairwise (fun x y => x.1 < y.1)) :
    x ∈ l.takeWhile (·.2 != .eof) ++ (l.find? (·.2 == .eof)).toList ↔
      x ∈ l ∧ ∀ y ∈ l, y.1 < x.1 → y.2 ≠ .eof := by
  induction l with
  | nil => simp
  | cons a l ih =>
    obtain ⟨first, sorted⟩ := List.pairwise_cons.mp sorted
    by_cases last : a.2 = .eof
    · rw [List.takeWhile_cons_of_neg (by simp [last]), List.find?_cons_of_pos (by simp [last]),
        List.nil_append, Option.toList_some, List.mem_singleton]
      constructor
      · rintro rfl
        refine ⟨List.mem_cons_self, fun y member lt => ?_⟩
        rcases List.mem_cons.mp member with rfl | member
        · exact absurd lt (Nat.lt_irrefl _)
        · exact absurd lt (Nat.lt_asymm (first y member))
      · rintro ⟨member, before⟩
        rcases List.mem_cons.mp member with rfl | member
        · rfl
        · exact absurd last (before a List.mem_cons_self (first x member))
    · rw [List.takeWhile_cons_of_pos (by simp [last]), List.find?_cons_of_neg (by simp [last]),
        List.cons_append, List.mem_cons, ih sorted, List.mem_cons]
      constructor
      · rintro (rfl | ⟨member, before⟩)
        · refine ⟨.inl rfl, fun y member lt => ?_⟩
          rcases List.mem_cons.mp member with rfl | member
          · exact last
          · exact absurd lt (Nat.lt_asymm (first y member))
        · refine ⟨.inr member, fun y earlier lt => ?_⟩
          rcases List.mem_cons.mp earlier with rfl | earlier
          · exact last
          · exact before y earlier lt
      · rintro ⟨rfl | member, before⟩
        · exact .inl rfl
        · exact .inr ⟨member, fun y earlier => before y (List.mem_cons_of_mem _ earlier)⟩

theorem takeWhile_find_sublist (l : List (Nat × TokenKind)) :
    (l.takeWhile (·.2 != .eof) ++ (l.find? (·.2 == .eof)).toList).Sublist l := by
  induction l with
  | nil => exact List.Sublist.slnil
  | cons a l ih =>
    by_cases last : a.2 = .eof
    · rw [List.takeWhile_cons_of_neg (by simp [last]), List.find?_cons_of_pos (by simp [last])]
      exact (List.nil_sublist l).cons_cons a
    · rw [List.takeWhile_cons_of_pos (by simp [last]), List.find?_cons_of_neg (by simp [last])]
      exact ih.cons_cons a

/-- The positions that a parse reads: those shown and the mark. -/
def Outline.positions (o : Outline) : List Nat :=
  o.shown.map (·.1) ++ o.mark.toList

theorem positions_eq (tokens : TokenStream) :
    (Outline.ofTokens tokens).positions =
      ((visible 0 tokens.toList).takeWhile (·.2 != .eof) ++
        ((visible 0 tokens.toList).find? (·.2 == .eof)).toList).map (·.1) := by
  rw [List.map_append, Outline.positions]
  simp only [Outline.ofTokens]
  cases (visible 0 tokens.toList).find? (·.2 == .eof) <;> rfl

theorem pairwise_positions (tokens : TokenStream) :
    (Outline.ofTokens tokens).positions.Pairwise (· < ·) := by
  rw [positions_eq, List.pairwise_map]
  exact (pairwise_visible _ _).sublist (takeWhile_find_sublist _)

end Parse

/-- The grammar sees the token at a position. -/
def TokenStream.Shows (tokens : TokenStream) (i : Nat) : Prop :=
  ∃ t, tokens[i]? = some t ∧ t.isHidden = false

namespace Parse

variable {tokens : TokenStream} {i : Nat} {k : TokenKind}

theorem mem_visible_iff :
    (i, k) ∈ visible 0 tokens.toList ↔ tokens.Shows i ∧ tokens.kindAt i = k := by
  rw [mem_visible]
  constructor
  · rintro ⟨j, t, same, found, shown, kind⟩
    rw [Nat.zero_add] at same
    have here : tokens[i]? = some t := by simpa [same] using found
    exact ⟨⟨t, here, shown⟩, by simpa [TokenStream.kindAt, here] using kind⟩
  · rintro ⟨⟨t, here, shown⟩, kind⟩
    refine ⟨i, t, (Nat.zero_add i).symm, by simpa using here, shown, ?_⟩
    simpa [TokenStream.kindAt, here] using kind

theorem mem_positions : i ∈ (Outline.ofTokens tokens).positions ↔
    tokens.Shows i ∧ ∀ j < i, tokens.Shows j → tokens.kindAt j ≠ .eof := by
  rw [positions_eq, List.mem_map]
  constructor
  · rintro ⟨⟨i, k⟩, member, rfl⟩
    obtain ⟨member, before⟩ := (mem_takeWhile_find (pairwise_visible _ _)).mp member
    refine ⟨(mem_visible_iff.mp member).1, fun j lt shown => ?_⟩
    exact before (j, tokens.kindAt j) (mem_visible_iff.mpr ⟨shown, rfl⟩) lt
  · rintro ⟨shown, before⟩
    refine ⟨(i, tokens.kindAt i), ?_, rfl⟩
    refine (mem_takeWhile_find (pairwise_visible _ _)).mpr
      ⟨mem_visible_iff.mpr ⟨shown, rfl⟩, ?_⟩
    rintro ⟨j, k⟩ member lt
    obtain ⟨shown, rfl⟩ := mem_visible_iff.mp member
    exact before j lt shown

theorem mem_shown {x : Nat × TokenKind} (member : x ∈ (Outline.ofTokens tokens).shown) :
    tokens.kindAt x.1 = x.2 ∧ x.2 ≠ .eof := by
  have listed : x ∈ visible 0 tokens.toList := (List.takeWhile_sublist _).subset member
  have visible := List.all_eq_true.mp List.all_takeWhile x member
  exact ⟨(mem_visible_iff.mp listed).2, by simpa using visible⟩

end Parse

def Grammar.Reading.ofTokens (tokens : TokenStream) : Reading where
  kind := tokens.kindAt
  mark := (Outline.ofTokens tokens).mark
  limit := tokens.size

theorem shown_kinds_eq (tokens : TokenStream) :
    (Outline.ofTokens tokens).shown.map (·.2) =
      ((Outline.ofTokens tokens).shown.map (·.1)).map (Reading.ofTokens tokens).kind := by
  rw [List.map_map]
  exact List.map_congr_left fun x member => (mem_shown member).1.symm

theorem tree_eq_steps (tokens : TokenStream) : (parseTokens tokens).tree =
    .ofSteps ((Reading.ofTokens tokens).steps ((Outline.ofTokens tokens).shown.map (·.1))
      [.goal .query]) := by
  rw [Reading.steps, ← shown_kinds_eq, tree_parseTokens]
  rfl

theorem unmarked_shown (tokens : TokenStream) :
    (Reading.ofTokens tokens).Unmarked ((Outline.ofTokens tokens).shown.map (·.1)) := by
  intro p member
  obtain ⟨x, listed, rfl⟩ := List.mem_map.mp member
  obtain ⟨kind, visible⟩ := mem_shown listed
  exact fun last => visible (kind.symm.trans last)

theorem parse_grows (tokens : TokenStream) :
    ∃ F s', Grows (.ofTokens tokens) [.item (.goal .query)]
        ((Outline.ofTokens tokens).shown.map (·.1)) [F] s' ∧
      (parseTokens tokens).tree = .ofSteps F.steps := by
  obtain ⟨rows, s', grows, length, _, steps⟩ := settles (.ofTokens tokens) [.goal .query]
    ((Outline.ofTokens tokens).shown.map (·.1)) trivial
  obtain ⟨F, rfl⟩ := List.length_eq_one_iff.mp length
  refine ⟨F, s', grows, ?_⟩
  have whole := steps []
  rw [List.append_nil] at whole
  rw [tree_eq_steps, whole, rowSteps, Reading.steps, run_nil]
  exact congrArg Tree.ofSteps (List.append_nil _)

/-- What is kept of every goal is true of the whole query. -/
theorem grows_query {R : Reading} {P : Goal → List Nat → Forest → List Nat → Prop} {F : Forest}
    {s s' : List Nat} (kept : ∀ g s F s', Made R P (R.moves g s) s [F] s' → P g s F s')
    (grows : Grows R [.item (.goal .query)] s [F] s') : P .query s F s' := by
  obtain ⟨G, s₁, H, others, same, goal, tail, rfl⟩ := grows.made kept
  obtain ⟨rfl, rfl⟩ := List.cons.inj same
  obtain ⟨rfl, -⟩ := List.cons.inj tail
  rwa [Forest.append_nil]

/-- The whole query is made of what is kept of its parts. -/
theorem made_query {R : Reading} {P : Goal → List Nat → Forest → List Nat → Prop} {F : Forest}
    {s s' : List Nat} (kept : ∀ g s F s', Made R P (R.moves g s) s [F] s' → P g s F s')
    (grows : Grows R [.item (.goal .query)] s [F] s') : Made R P (R.moves .query s) s [F] s' :=
  grows_query (P := fun g s F s' => Made R P (R.moves g s) s [F] s')
    (fun _ _ _ _ made => made.mono kept) grows

/-- The tree of a parse holds a forest that the grammar leaves, over all that a parse reads. -/
theorem parse_planted (tokens : TokenStream) :
    ∃ start below s', Grows (.ofTokens tokens) [.item (.goal .query)]
        ((Outline.ofTokens tokens).shown.map (·.1)) [.node .query start below .nil] s' ∧
      below.leaves = (Outline.ofTokens tokens).positions ∧
        (parseTokens tokens).tree.Planted (.node .query start below .nil) tokens.size := by
  obtain ⟨F, s', grows, built⟩ := parse_grows tokens
  have took := grows_query (fun _ _ _ _ => took_of_made) grows
  obtain ⟨leaves, starts, below, rfl⟩ := took.2.2 rfl (unmarked_shown tokens)
  have read : below.leaves = (Outline.ofTokens tokens).positions := by
    rw [Forest.leaves, Forest.leaves, List.append_nil] at leaves
    exact leaves
  obtain ⟨size, lodged⟩ := Tree.ofSteps_forest (.node .query _ below .nil)
  refine ⟨_, below, s', grows, read, ?_⟩
  rw [built]
  refine ⟨size, lodged, starts, ?_, fun p member => ?_⟩
  · rw [Forest.leaves, Forest.leaves, List.append_nil, read]
    exact pairwise_positions tokens
  · rw [Forest.leaves, Forest.leaves, List.append_nil, read] at member
    obtain ⟨t, found, _⟩ := (mem_positions.mp member).1
    exact (Array.getElem?_eq_some_iff.mp found).1

theorem mem_positions_iff_token {tokens : TokenStream} {i : Nat} :
    i ∈ (Outline.ofTokens tokens).positions ↔
      ∃ n, (parseTokens tokens).tree.token? n = some i := by
  obtain ⟨start, below, s', _, read, planted⟩ := parse_planted tokens
  have listed := planted.tokens
  rw [Forest.leaves, Forest.leaves, List.append_nil, read] at listed
  rw [← listed, Tree.tokensFrom, List.mem_filterMap]
  constructor
  · rintro ⟨n, _, token⟩
    exact ⟨n, token⟩
  · rintro ⟨n, token⟩
    have within := Tree.lt_size_of_token token
    exact ⟨n, List.mem_range'_1.mpr (by omega), token⟩

/-- No token is lost, repeated or moved by parsing. -/
theorem leaves_parse (tokens : TokenStream) :
    ((parseTokens tokens).tree.leaves 0).Pairwise (· < ·) ∧
      (List.range (parseTokens tokens).tree.size).filterMap (parseTokens tokens).tree.token? =
        (parseTokens tokens).tree.leaves 0 ∧
      ∀ i, i ∈ (parseTokens tokens).tree.leaves 0 ↔
        tokens.Shows i ∧ ∀ j < i, tokens.Shows j → tokens.kindAt j ≠ .eof := by
  obtain ⟨start, below, s', _, read, planted⟩ := parse_planted tokens
  have deep : (parseTokens tokens).tree.leaves 0 = (Outline.ofTokens tokens).positions := by
    have root := planted.lodged.holds
    have within := planted.size
    rw [Forest.size, Forest.size] at within
    rw [Tree.leaves, root.token, root.children, ← read]
    exact root.2.flatMap_leaves (Nat.lt_succ_self 0) (by omega)
  have flat : (List.range (parseTokens tokens).tree.size).filterMap
      (parseTokens tokens).tree.token? = (Outline.ofTokens tokens).positions := by
    rw [List.range_eq_range', planted.size, planted.lodged.filterMap_token, Forest.leaves,
      Forest.leaves, List.append_nil, read]
  rw [deep]
  exact ⟨pairwise_positions tokens, flat, fun i => mem_positions⟩

end SoqlAssist
