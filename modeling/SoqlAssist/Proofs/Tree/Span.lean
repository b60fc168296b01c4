import SoqlAssist.Proofs.Tree.Order

/-!
Spans. When the tokens of a forest increase and every rule starts at the first token from it on, the
order of the nodes in the array is the order of the tokens: the span of a node is that of the tokens
below it, spans of nodes that are not below one another do not meet, and a node that comes later
does not start earlier.
-/
namespace SoqlAssist

namespace Forest

/-- Every rule starts at the first token from it on; the tokens in `rest` come after the forest, and
`limit` stands for the first token where none is left. -/
def Starts (limit : Nat) (rest : List Nat) : Forest → Prop
  | .nil => True
  | .leaf _ next => next.Starts limit rest
  | .node _ s below next =>
    s = (below.leaves ++ (next.leaves ++ rest)).headD limit ∧
      below.Starts limit (next.leaves ++ rest) ∧ next.Starts limit rest

theorem starts_append {F G : Forest} {limit : Nat} {rest : List Nat} :
    (F ++ G).Starts limit rest ↔ F.Starts limit (G.leaves ++ rest) ∧ G.Starts limit rest := by
  induction F with
  | nil => simp [Starts]
  | leaf p next ih => simp only [leaf_append, Starts, ih]
  | node r s below next _ ih =>
    simp only [node_append, Starts, ih, leaves_append, List.append_assoc, and_assoc]

theorem Lodged.start_eq {t : Tree} {F : Forest} {parent : Option Nat} {i n limit : Nat}
    {rest : List Nat} (lodged : F.Lodged t.nodes parent i) (starts : F.Starts limit rest)
    (lower : i ≤ n) (upper : n < i + F.size) :
    t.start? n =
      some (((List.range' n (i + F.size - n)).filterMap t.token? ++ rest).headD limit) := by
  induction F generalizing parent i rest with
  | nil =>
    rw [size] at upper
    omega
  | leaf p next ih =>
    rcases Nat.eq_or_lt_of_le lower with rfl | later
    · rw [Nat.add_sub_cancel_left, lodged.filterMap_token]
      simp [Tree.start?, lodged.1, leaves]
    · rw [size] at upper ⊢
      rw [ih lodged.2 starts later (by omega)]
      congr 6
      omega
  | node r s below next ihBelow ihNext =>
    rcases Nat.eq_or_lt_of_le lower with rfl | later
    · rw [Nat.add_sub_cancel_left, lodged.filterMap_token, lodged.holds.start, starts.1, leaves,
        List.append_assoc]
    rw [size] at upper ⊢
    by_cases inside : n < i + 1 + below.size
    · have split : List.range' n (i + (below.size + next.size + 1) - n) =
          List.range' n (i + 1 + below.size - n) ++
            List.range' (i + 1 + below.size) next.size := by
        have count : i + (below.size + next.size + 1) - n =
            (i + 1 + below.size - n) + next.size := by omega
        have place : i + 1 + below.size = n + 1 * (i + 1 + below.size - n) := by omega
        rw [count, ← List.range'_append, ← place]
      rw [ihBelow lodged.2.1 starts.2.1 later inside, split, List.filterMap_append,
        lodged.2.2.filterMap_token, List.append_assoc]
    · rw [ihNext lodged.2.2 starts.2.2 (by omega) (by omega)]
      congr 6
      omega

end Forest

namespace Tree

/-- The tree holds the forest, whose tokens increase and whose rules start at their tokens. -/
structure Planted (t : Tree) (F : Forest) (limit : Nat) : Prop where
  size : t.size = F.size
  lodged : F.Lodged t.nodes none 0
  starts : F.Starts limit []
  increasing : F.leaves.Pairwise (· < ·)
  bounded : ∀ p ∈ F.leaves, p < limit

def tokensFrom (t : Tree) (n : Nat) : List Nat :=
  (List.range' n (t.size - n)).filterMap t.token?

section

variable {t : Tree} {m n p : Nat}

theorem tokensFrom_split (le : m ≤ n) (within : n ≤ t.size) :
    t.tokensFrom m = (List.range' m (n - m)).filterMap t.token? ++ t.tokensFrom n := by
  have count : t.size - m = (n - m) + (t.size - n) := by omega
  have place : n = m + 1 * (n - m) := by omega
  rw [tokensFrom, count, ← List.range'_append, ← place, List.filterMap_append, tokensFrom]

theorem tokensFrom_token (within : n < t.size) (token : t.token? n = some p) :
    t.tokensFrom n = p :: t.tokensFrom (n + 1) := by
  have count : t.size - n = (t.size - (n + 1)) + 1 := by omega
  rw [tokensFrom, count, List.range'_succ, List.filterMap_cons_some token, tokensFrom]

theorem lt_size_of_token (token : t.token? n = some p) : n < t.size := by
  rcases Nat.lt_or_ge n t.size with lt | ge
  · exact lt
  · have absent : t.nodes[n]? = none := Array.getElem?_eq_none ge
    simp [token?, absent] at token

theorem lt_size_of_start (start : t.start? n = some p) : n < t.size := by
  rcases Nat.lt_or_ge n t.size with lt | ge
  · exact lt
  · have absent : t.nodes[n]? = none := Array.getElem?_eq_none ge
    simp [start?, absent] at start

theorem lt_size_of_rule {r : Rule} (rule : t.rule? n = some r) : n < t.size := by
  rcases Nat.lt_or_ge n t.size with lt | ge
  · exact lt
  · have absent : t.nodes[n]? = none := Array.getElem?_eq_none ge
    simp [rule?, absent] at rule

end

namespace Planted

variable {t : Tree} {F : Forest} {limit m n a p q : Nat} {r : Rule}

theorem tokens (planted : Planted t F limit) : t.tokensFrom 0 = F.leaves := by
  rw [tokensFrom, planted.size, Nat.sub_zero, planted.lodged.filterMap_token]

/-- The tokens from a node on increase up to the limit. -/
theorem pairwise_tokensFrom (planted : Planted t F limit) (within : n ≤ t.size) :
    (t.tokensFrom n ++ [limit]).Pairwise (· < ·) := by
  have whole : (t.tokensFrom 0 ++ [limit]).Pairwise (· < ·) := by
    rw [planted.tokens]
    refine List.pairwise_append.mpr ⟨planted.increasing, List.pairwise_singleton _ _, ?_⟩
    intro p member q last
    rw [List.mem_singleton.mp last]
    exact planted.bounded p member
  rw [tokensFrom_split (Nat.zero_le n) within, List.append_assoc] at whole
  exact (List.pairwise_append.mp whole).2.1

theorem start_eq (planted : Planted t F limit) (within : n < t.size) :
    t.start? n = some ((t.tokensFrom n).headD limit) := by
  rw [planted.lodged.start_eq planted.starts (Nat.zero_le n) (by rw [← planted.size]; omega),
    List.append_nil, tokensFrom, planted.size, Nat.zero_add]

/-- A node starts no later than the tokens that come after it in the array. -/
theorem start_le (planted : Planted t F limit) (le : m ≤ n) (token : t.token? n = some p)
    (start : t.start? m = some a) : a ≤ p := by
  have within := lt_size_of_token token
  rw [planted.start_eq (by omega)] at start
  have sorted := planted.pairwise_tokensFrom (n := m) (by omega)
  rw [tokensFrom_split le (by omega), tokensFrom_token within token] at start sorted
  obtain rfl := Option.some.inj start
  cases before : (List.range' m (n - m)).filterMap t.token? with
  | nil => simp
  | cons first others =>
    rw [before] at sorted
    simp only [List.cons_append, List.pairwise_cons] at sorted
    exact Nat.le_of_lt (sorted.1 p (by simp))

/-- A node starts after the tokens that come before it in the array. -/
theorem lt_start (planted : Planted t F limit) (lt : m < n) (token : t.token? m = some p)
    (start : t.start? n = some a) : p < a := by
  have within := lt_size_of_start start
  rw [planted.start_eq within] at start
  obtain rfl := Option.some.inj start
  have sorted := planted.pairwise_tokensFrom (n := m) (by omega)
  rw [tokensFrom_token (by omega) token, tokensFrom_split lt (by omega), List.cons_append,
    List.append_assoc] at sorted
  refine (List.pairwise_cons.mp sorted).1 _ (List.mem_append_right _ ?_)
  cases t.tokensFrom n <;> simp

/-- Where a token is left, a node starts at a token. -/
theorem token_of_start (planted : Planted t F limit) (le : m ≤ n) (token : t.token? n = some p)
    (start : t.start? m = some a) : ∃ k, t.token? k = some a := by
  have within := lt_size_of_token token
  rw [planted.start_eq (by omega)] at start
  have listed : p ∈ t.tokensFrom m := by
    rw [tokensFrom_split le (by omega), tokensFrom_token within token]
    exact List.mem_append_right _ List.mem_cons_self
  obtain ⟨head, rest, split⟩ := List.exists_cons_of_ne_nil (List.ne_nil_of_mem listed)
  rw [split] at start
  obtain rfl := Option.some.inj start
  have first : head ∈ t.tokensFrom m := split ▸ List.mem_cons_self
  obtain ⟨k, _, found⟩ := List.mem_filterMap.mp first
  exact ⟨k, found⟩

theorem start_token (planted : Planted t F limit) (token : t.token? n = some p) :
    t.start? n = some p := by
  have within := lt_size_of_token token
  rw [planted.start_eq within, tokensFrom_token within token]
  rfl

theorem token_lt (planted : Planted t F limit) (lt : m < n) (first : t.token? m = some p)
    (second : t.token? n = some q) : p < q :=
  planted.lt_start lt first (planted.start_token second)

theorem start_mono (planted : Planted t F limit) (le : m ≤ n) (first : t.start? m = some p)
    (second : t.start? n = some q) : p ≤ q := by
  have within := lt_size_of_start second
  rw [planted.start_eq (by omega)] at first
  rw [planted.start_eq within] at second
  have sorted := planted.pairwise_tokensFrom (n := m) (by omega)
  rw [tokensFrom_split le (by omega)] at first sorted
  obtain rfl := Option.some.inj first
  obtain rfl := Option.some.inj second
  cases before : (List.range' m (n - m)).filterMap t.token? with
  | nil => simp
  | cons head others =>
    rw [before] at sorted
    simp only [List.cons_append, List.append_assoc, List.pairwise_cons] at sorted
    refine Nat.le_of_lt (sorted.1 _ (List.mem_append_right _ ?_))
    cases t.tokensFrom n <;> simp

/-- A node for a rule holds a forest, of which whatever is true of every rule is true. -/
theorem holds (planted : Planted t F limit) (rule : t.rule? n = some r) :
    ∃ s below, t.Holds n r s below ∧ n + below.size < t.size ∧
      ∀ p, F.Every p → p r s below := by
  have within := lt_size_of_rule rule
  rw [planted.size] at within ⊢
  rcases planted.lodged.locate (Nat.zero_le n) (by omega) with
    ⟨p, _, _, unruled⟩ | ⟨r', s, below, held, inside, every⟩
  · simp [unruled] at rule
  · obtain rfl := Option.some.inj (held.rule.symm.trans rule)
    exact ⟨s, below, held, by omega, every⟩

variable {s : Nat} {below : Forest}

theorem within (planted : Planted t F limit) (held : t.Holds n r s below) :
    n + below.size < t.size := by
  obtain ⟨s', below', held', inside, _⟩ := planted.holds held.rule
  rwa [held.unique held']

/-- The nodes below a node come right after it. -/
theorem mem_ancestors_iff (planted : Planted t F limit) (held : t.Holds a r s below) :
    a ∈ t.ancestors n ↔ a < n ∧ n ≤ a + below.size :=
  planted.lodged.mem_ancestors_iff planted.size held

theorem mem_leaves (held : t.Holds a r s below) :
    p ∈ below.leaves ↔ ∃ n, a < n ∧ n ≤ a + below.size ∧ t.token? n = some p := by
  rw [← held.2.filterMap_token, List.mem_filterMap]
  constructor
  · rintro ⟨n, member, token⟩
    rw [List.mem_range'_1] at member
    exact ⟨n, by omega, by omega, token⟩
  · rintro ⟨n, lower, upper, token⟩
    exact ⟨n, by rw [List.mem_range'_1]; omega, token⟩

theorem pairwise_leaves (planted : Planted t F limit) (held : t.Holds a r s below) :
    below.leaves.Pairwise (· < ·) := by
  have inside := planted.within held
  have sorted := planted.pairwise_tokensFrom (n := a + 1) (by omega)
  rw [tokensFrom_split (n := a + 1 + below.size) (by omega) (by omega), Nat.add_sub_cancel_left,
    held.2.filterMap_token, List.append_assoc] at sorted
  exact (List.pairwise_append.mp sorted).1

/-- The last token of a node is below it. -/
theorem token_of_stop (held : t.Holds a r s below) (stop : t.stop? a = some q) :
    ∃ n, a < n ∧ n ≤ a + below.size ∧ t.token? n = some q := by
  rw [held.stop] at stop
  exact (mem_leaves held).mp (List.mem_of_getLast? stop)

theorem le_stop (planted : Planted t F limit) (held : t.Holds a r s below) (after : a < n)
    (inside : n ≤ a + below.size) (token : t.token? n = some p) :
    ∃ q, t.stop? a = some q ∧ p ≤ q := by
  have member := (mem_leaves held).mpr ⟨n, after, inside, token⟩
  have sorted := planted.pairwise_leaves held
  rw [held.stop]
  rcases List.eq_nil_or_concat below.leaves with empty | ⟨before, last, split⟩
  · rw [empty] at member
    exact absurd member List.not_mem_nil
  · rw [split, List.concat_eq_append] at member sorted ⊢
    refine ⟨last, by simp, ?_⟩
    rcases List.mem_append.mp member with member | member
    · exact Nat.le_of_lt ((List.pairwise_append.mp sorted).2.2 p member last (by simp))
    · exact Nat.le_of_eq (List.mem_singleton.mp member)

/-- A node that comes after all that is below another starts after its last token. -/
theorem stop_lt (planted : Planted t F limit) (held : t.Holds a r s below)
    (stop : t.stop? a = some q) (after : a + below.size < n) (start : t.start? n = some p) :
    q < p := by
  obtain ⟨m, _, inside, token⟩ := token_of_stop held stop
  exact planted.lt_start (by omega) token start

end Planted

end Tree

end SoqlAssist
