import Mathlib
import SoqlAssist.Proofs.Query.Visibility

/-!
What a node spans. The tokens below a node are the visible tokens from its first position to its
last, and its text is theirs; a node below which there is no token has no last position. The tokens
of a child come before the start of the children behind it.
-/
namespace SoqlAssist

open Parse

namespace Forest.Lodged

variable {t : Tree} {F : Forest} {parent : Option Nat} {i : Nat}

/-- The tokens of a tree of a row come before the trees behind it. -/
theorem pairwise_leaves_roots (lodged : F.Lodged t.nodes parent i)
    (within : i + F.size ≤ t.size) :
    (F.roots i).Pairwise fun c d => ∀ p ∈ t.leaves c, ∃ m < d, t.token? m = some p := by
  induction F generalizing parent i with
  | nil => exact List.Pairwise.nil
  | leaf p next ih =>
    rw [size] at within
    refine List.pairwise_cons.mpr ⟨fun d later q member => ?_, ih lodged.2 (by omega)⟩
    rw [Tree.leaves, lodged.token_leaf] at member
    rw [List.mem_singleton.mp member]
    exact ⟨i, (mem_roots later).1, lodged.token_leaf⟩
  | node r s below next _ ih =>
    rw [size] at within
    refine List.pairwise_cons.mpr ⟨fun d later q member => ?_, ih lodged.2.2 (by omega)⟩
    have held := lodged.holds
    rw [Tree.leaves, held.token, held.children] at member
    simp only [held.2.flatMap_leaves (Nat.lt_succ_self i) (by omega)] at member
    obtain ⟨m, _, inside, token⟩ := (Tree.Planted.mem_leaves held).mp member
    have bounds := mem_roots later
    exact ⟨m, by omega, token⟩

end Forest.Lodged

namespace Tree.Planted

variable {t : Tree} {F : Forest} {limit n s : Nat} {r : Rule} {below : Forest}

theorem leaves_eq (planted : t.Planted F limit) (held : t.Holds n r s below) :
    t.leaves n = below.leaves := by
  have within := planted.within held
  rw [leaves, held.token, held.children]
  exact held.2.flatMap_leaves (Nat.lt_succ_self n) (by omega)

theorem children_start_le (planted : t.Planted F limit) (held : t.Holds n r s below) :
    ∀ c ∈ t.children n, ∃ a, t.start? c = some a ∧ s ≤ a := by
  intro c member
  rw [held.children] at member
  have bounds := Forest.mem_roots member
  have within := planted.within held
  have start := planted.start_eq (n := c) (by omega)
  exact ⟨_, start, planted.start_mono (by omega) held.start start⟩

theorem pairwise_children (planted : t.Planted F limit) (held : t.Holds n r s below) :
    (t.children n).Pairwise fun c d => ∃ a, t.start? d = some a ∧ ∀ p ∈ t.leaves c, p < a := by
  have within := planted.within held
  rw [held.children]
  refine (held.2.pairwise_leaves_roots (by omega)).imp_of_mem ?_
  intro c d _ member earlier
  have bounds := Forest.mem_roots member
  have start := planted.start_eq (n := d) (by omega)
  refine ⟨_, start, fun p below => ?_⟩
  obtain ⟨m, lt, token⟩ := earlier p below
  exact planted.lt_start lt token start

end Tree.Planted

namespace TokenStream

variable {tokens : TokenStream}

/-- The tokens at the visible positions of a stretch are the visible tokens of the stretch. -/
theorem filterMap_range (ts : List Token) (a k : Nat) :
    ((List.range' a k).filter fun i => ts[i]?.any (!·.isHidden)).filterMap (ts[·]?) =
      ((ts.drop a).take k).filter (!·.isHidden) := by
  induction k generalizing a with
  | zero => simp
  | succ k ih =>
    rw [List.range'_succ]
    cases found : ts[a]? with
    | none =>
      have short := List.getElem?_eq_none_iff.mp found
      rw [List.filter_cons_of_neg (by simp [found]), ih,
        List.drop_eq_nil_of_le (by omega : ts.length ≤ a + 1), List.drop_eq_nil_of_le short,
        List.take_nil, List.take_nil]
    | some t =>
      obtain ⟨lt, here⟩ := List.getElem?_eq_some_iff.mp found
      rw [List.drop_eq_getElem_cons lt, List.take_succ_cons, here]
      cases hidden : t.isHidden with
      | true =>
        rw [List.filter_cons_of_neg (by simp [found, hidden]), ih,
          List.filter_cons_of_neg (by simp [hidden])]
      | false =>
        rw [List.filter_cons_of_pos (by simp [found, hidden]), List.filterMap_cons_some found, ih,
          List.filter_cons_of_pos (by simp [hidden])]

/-- Increasing positions that are the visible ones of a stretch. -/
theorem filterMap_eq_shown {l : List Nat} {s e : Nat} (increasing : l.Pairwise (· < ·))
    (members : ∀ i, i ∈ l ↔ tokens.Shows i ∧ s ≤ i ∧ i ≤ e) :
    l.filterMap (tokens[·]?) = (shown (tokens.extract s (e + 1))).toList := by
  have listed : l = (List.range' s (e + 1 - s)).filter fun i =>
      tokens.toList[i]?.any (!·.isHidden) := by
    refine increasing.eq_of_mem_iff ((List.pairwise_lt_range' ..).sublist List.filter_sublist) ?_
    intro i
    rw [members, List.mem_filter, List.mem_range'_1, Array.getElem?_toList, Option.any_eq_true,
      Shows]
    simp only [Bool.not_eq_true']
    constructor
    · rintro ⟨seen, lower, upper⟩
      exact ⟨by omega, seen⟩
    · rintro ⟨bounds, seen⟩
      exact ⟨seen, by omega, by omega⟩
  have stretch := filterMap_range tokens.toList s (e + 1 - s)
  simp only [Array.getElem?_toList] at stretch listed
  rw [listed, stretch, shown, Array.toList_filter, Array.toList_extract, List.extract_eq_take_drop]

end TokenStream

section Parse

variable {tokens : TokenStream} {F below : Forest} {n s e : Nat} {r : Rule}

/-- The visible tokens between the first and the last token of a node are those below it. -/
theorem mem_leaves_iff (planted : (parseTokens tokens).tree.Planted F tokens.size)
    (held : (parseTokens tokens).tree.Holds n r s below)
    (stop : (parseTokens tokens).tree.stop? n = some e) (i : Nat) :
    i ∈ below.leaves ↔ tokens.Shows i ∧ s ≤ i ∧ i ≤ e := by
  constructor
  · intro member
    obtain ⟨m, after, inside, token⟩ := (Tree.Planted.mem_leaves held).mp member
    obtain ⟨e', stop', le⟩ := planted.le_stop held after inside token
    obtain rfl := Option.some.inj (stop.symm.trans stop')
    exact ⟨(mem_positions.mp (mem_positions_iff_token.mpr ⟨m, token⟩)).1,
      planted.start_le (Nat.le_of_lt after) token held.start, le⟩
  · rintro ⟨seen, lower, upper⟩
    obtain ⟨k, _, _, last⟩ := Tree.Planted.token_of_stop held stop
    obtain ⟨_, before⟩ := mem_positions.mp (mem_positions_iff_token.mpr ⟨k, last⟩)
    -- What stands before a token that was read was read.
    have read : i ∈ (Outline.ofTokens tokens).positions :=
      mem_positions.mpr ⟨seen, fun j lt => before j (by omega)⟩
    obtain ⟨m, token⟩ := mem_positions_iff_token.mp read
    refine (Tree.Planted.mem_leaves held).mpr ⟨m, ?_, ?_, token⟩
    · rcases Nat.lt_trichotomy m n with earlier | rfl | later
      · have lt := planted.lt_start earlier token held.start
        omega
      · exact absurd token (by simp [held.token])
      · exact later
    · by_contra outside
      have lt := planted.stop_lt held stop (by omega) (planted.start_token token)
      omega

/-- A node spans exactly the visible tokens from its start to its stop, which are the tokens below
it; the children of a node start in it, one after the other. -/
theorem span_parse (tokens : TokenStream) (n : Nat) (r : Rule)
    (rule : (parseTokens tokens).tree.rule? n = some r) :
    let t := (parseTokens tokens).tree
    ∃ s, t.start? n = some s ∧
      (t.leaves n = [] ∧ t.stop? n = none ∨
        ∃ e, t.stop? n = some e ∧ s ∈ t.leaves n ∧ e ∈ t.leaves n ∧
          (∀ i, i ∈ t.leaves n ↔ tokens.Shows i ∧ s ≤ i ∧ i ≤ e) ∧
          t.text n tokens =
            String.join ((TokenStream.shown (tokens.extract s (e + 1))).toList.map (·.text))) ∧
      (∀ c ∈ t.children n, ∃ a, t.start? c = some a ∧ s ≤ a) ∧
      (t.children n).Pairwise fun c d =>
        ∃ a, t.start? d = some a ∧ ∀ i ∈ t.leaves c, i < a := by
  intro t
  obtain ⟨start, body, s', _, _, planted⟩ := parse_planted tokens
  obtain ⟨s, below, held, _⟩ := planted.holds rule
  have leaves := planted.leaves_eq held
  refine ⟨s, held.start, ?_, planted.children_start_le held, planted.pairwise_children held⟩
  rw [leaves]
  cases stop : t.stop? n with
  | none => exact .inl ⟨List.getLast?_eq_none_iff.mp (held.stop.symm.trans stop), rfl⟩
  | some e =>
    have last : e ∈ below.leaves := List.mem_of_getLast? (held.stop.symm.trans stop)
    have members := mem_leaves_iff planted held stop
    have first : s ∈ below.leaves := by
      obtain ⟨k, after, _, token⟩ := (Tree.Planted.mem_leaves held).mp last
      have le := Nat.le_of_lt after
      have seen := planted.token_of_start le token held.start
      exact (members s).mpr ⟨(mem_positions.mp (mem_positions_iff_token.mpr seen)).1,
        Nat.le_refl s, planted.start_le le token held.start⟩
    refine .inr ⟨e, rfl, first, last, members, ?_⟩
    rw [Tree.text, leaves, ← TokenStream.filterMap_eq_shown (planted.pairwise_leaves held) members,
      List.map_filterMap, ← List.filterMap_eq_map]
    refine congrArg String.join (List.filterMap_congr fun i member => ?_)
    obtain ⟨token, found, _⟩ := ((members i).mp member).1
    simp [found]

def brokenQuery : String := "SELECT FROM /* x */ A WHERE"

/-- The query of the text spans all but the blanks and the comment. -/
theorem span_parse_brokenQuery :
    let tokens := tokenize brokenQuery
    let t := (parseTokens tokens).tree
    t.rule? 1 = some .innerQuery ∧ t.start? 1 = some 0 ∧ t.stop? 1 = some 8 ∧
      (∀ i, i ∈ t.leaves 1 ↔ tokens.Shows i ∧ 0 ≤ i ∧ i ≤ 8) ∧
      t.text 1 tokens = "SELECTFROMAWHERE" ∧
      (t.children 1).Pairwise fun c d =>
        ∃ a, t.start? d = some a ∧ ∀ i ∈ t.leaves c, i < a := by
  have values : (let t := (parseTokens (tokenize brokenQuery)).tree
      (t.rule? 1, t.start? 1, t.stop? 1)) = (some .innerQuery, some 0, some 8) := by cbv
  have joined : String.join ((TokenStream.shown ((tokenize brokenQuery).extract 0 9)).toList.map
      (·.text)) = "SELECTFROMAWHERE" := by cbv
  simp only [Prod.mk.injEq] at values
  obtain ⟨rule, start, stop⟩ := values
  obtain ⟨s, start', span, _, children⟩ := span_parse (tokenize brokenQuery) 1 .innerQuery rule
  obtain rfl := Option.some.inj (start.symm.trans start')
  rcases span with ⟨_, none⟩ | ⟨e, stop', _, _, members, text⟩
  · exact absurd (stop.symm.trans none) (by simp)
  · obtain rfl := Option.some.inj (stop.symm.trans stop')
    exact ⟨rule, start, stop, members, text.trans joined, children⟩

end Parse

end SoqlAssist
