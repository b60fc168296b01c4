import SoqlAssist.Proofs.Tree.Forest

/-!
Lookups in a tree that holds a forest. The nodes below a node are those that come right after it, as
many as its forest has; parents, children, ancestors and the tokens below a node are read off the
forest.
-/
namespace SoqlAssist

/-- The node at `n` stands for a rule, with a forest below it. -/
def Tree.Holds (t : Tree) (n : Nat) (r : Rule) (s : Nat) (below : Forest) : Prop :=
  (∃ parent, t.nodes[n]? = some ⟨.rule r, parent, (below.roots (n + 1)).toArray, s,
    below.leaves.getLast?⟩) ∧ below.Lodged t.nodes (some n) (n + 1)

namespace Tree.Holds

variable {t : Tree} {n s : Nat} {r : Rule} {below : Forest}

theorem rule (holds : t.Holds n r s below) : t.rule? n = some r := by
  obtain ⟨⟨parent, found⟩, _⟩ := holds
  simp [rule?, found]

theorem token (holds : t.Holds n r s below) : t.token? n = none := by
  obtain ⟨⟨parent, found⟩, _⟩ := holds
  simp [token?, found]

theorem start (holds : t.Holds n r s below) : t.start? n = some s := by
  obtain ⟨⟨parent, found⟩, _⟩ := holds
  simp [start?, found]

theorem stop (holds : t.Holds n r s below) : t.stop? n = below.leaves.getLast? := by
  obtain ⟨⟨parent, found⟩, _⟩ := holds
  simp [stop?, found]

theorem children (holds : t.Holds n r s below) : t.children n = below.roots (n + 1) := by
  obtain ⟨⟨parent, found⟩, _⟩ := holds
  simp [Tree.children, found]

end Tree.Holds

namespace Forest

/-- Every rule of the forest, with its first position and what is below it, has a property. -/
def Every (p : Rule → Nat → Forest → Prop) : Forest → Prop
  | .nil => True
  | .leaf _ next => next.Every p
  | .node r s below next => p r s below ∧ below.Every p ∧ next.Every p

@[simp] theorem every_append {p : Rule → Nat → Forest → Prop} {F G : Forest} :
    (F ++ G).Every p ↔ F.Every p ∧ G.Every p := by
  induction F with
  | nil => simp [Every]
  | leaf q next ih => simp only [leaf_append, Every, ih]
  | node r s below next _ ih => simp only [node_append, Every, ih, and_assoc]

theorem mem_roots {F : Forest} {i c : Nat} (member : c ∈ F.roots i) : i ≤ c ∧ c < i + F.size := by
  induction F generalizing i with
  | nil => exact absurd member List.not_mem_nil
  | leaf p next ih =>
    rw [size]
    rcases List.mem_cons.mp member with rfl | member
    · omega
    · have bound := ih member
      omega
  | node r s below next _ ih =>
    rw [size]
    rcases List.mem_cons.mp member with rfl | member
    · omega
    · have bound := ih member
      omega

namespace Lodged

variable {t : Tree} {F : Forest} {parent : Option Nat} {i n a : Nat}

theorem token_leaf {p : Nat} {next : Forest}
    (lodged : (Forest.leaf p next).Lodged t.nodes parent i) : t.token? i = some p := by
  simp [Tree.token?, lodged.1]

theorem holds {r : Rule} {s : Nat} {below next : Forest}
    (lodged : (Forest.node r s below next).Lodged t.nodes parent i) : t.Holds i r s below :=
  ⟨⟨parent, lodged.1⟩, lodged.2.1⟩

/-- A node is a token or holds a forest that lies within. -/
theorem locate (lodged : F.Lodged t.nodes parent i) (lower : i ≤ n) (upper : n < i + F.size) :
    (∃ p, t.token? n = some p ∧ t.start? n = some p ∧ t.rule? n = none) ∨
      ∃ r s below, t.Holds n r s below ∧ n + below.size < i + F.size ∧
        ∀ p, F.Every p → p r s below := by
  induction F generalizing parent i with
  | nil =>
    rw [size] at upper
    omega
  | leaf p next ih =>
    rw [size] at upper ⊢
    rcases Nat.eq_or_lt_of_le lower with rfl | later
    · exact .inl ⟨p, lodged.token_leaf, by simp [Tree.start?, lodged.1],
        by simp [Tree.rule?, lodged.1]⟩
    · rcases ih lodged.2 later (by omega) with token | ⟨r, s, below, holds, within, every⟩
      · exact .inl token
      · exact .inr ⟨r, s, below, holds, by omega, every⟩
  | node r s below next ihBelow ihNext =>
    rw [size] at upper ⊢
    rcases Nat.eq_or_lt_of_le lower with rfl | later
    · exact .inr ⟨r, s, below, lodged.holds, by omega, fun _ every => every.1⟩
    by_cases inside : n < i + 1 + below.size
    · rcases ihBelow lodged.2.1 later inside with token | ⟨r, s, below, holds, within, every⟩
      · exact .inl token
      · exact .inr ⟨r, s, below, holds, by omega, fun p each => every p each.2.1⟩
    · rcases ihNext lodged.2.2 (by omega) (by omega) with
        token | ⟨r, s, below, holds, within, every⟩
      · exact .inl token
      · exact .inr ⟨r, s, below, holds, by omega, fun p each => every p each.2.2⟩

/-- A row is determined by the array and the places of its trees. -/
theorem unique {G : Forest} (first : F.Lodged t.nodes parent i) (second : G.Lodged t.nodes parent i)
    (same : F.roots i = G.roots i) : F = G := by
  induction F generalizing parent i G with
  | nil =>
    cases G with
    | nil => rfl
    | leaf p next => simp [roots] at same
    | node r s below next => simp [roots] at same
  | leaf p next ih =>
    cases G with
    | nil => simp [roots] at same
    | leaf p' next' =>
      have node := first.1.symm.trans second.1
      simp only [Option.some.injEq, Node.mk.injEq, NodeKind.token.injEq] at node
      rw [node.1, ih first.2 second.2 (List.cons.inj same).2]
    | node r s below next' =>
      have node := first.1.symm.trans second.1
      simp at node
  | node r s below next ihBelow ihNext =>
    cases G with
    | nil => simp [roots] at same
    | leaf p next' =>
      have node := first.1.symm.trans second.1
      simp at node
    | node r' s' below' next' =>
      have node := first.1.symm.trans second.1
      simp only [Option.some.injEq, Node.mk.injEq, NodeKind.rule.injEq] at node
      have children : below.roots (i + 1) = below'.roots (i + 1) := by
        simpa using congrArg Array.toList node.2.2.1
      obtain rfl := ihBelow first.2.1 second.2.1 children
      rw [node.1, node.2.2.2.1, ihNext first.2.2 second.2.2 (List.cons.inj same).2]

/-- The tokens in the array are those of the forest, in its order. -/
theorem filterMap_token (lodged : F.Lodged t.nodes parent i) :
    (List.range' i F.size).filterMap t.token? = F.leaves := by
  induction F generalizing parent i with
  | nil => rfl
  | leaf p next ih =>
    rw [size, List.range'_succ, List.filterMap_cons_some lodged.token_leaf, ih lodged.2, leaves]
  | node r s below next ihBelow ihNext =>
    rw [size, List.range'_succ, List.filterMap_cons_none lodged.holds.token,
      ← List.range'_append_1, List.filterMap_append, ihBelow lodged.2.1, ihNext lodged.2.2, leaves]

/-- The tokens below the trees of a row are those of the row. -/
theorem flatMap_leaves (lodged : F.Lodged t.nodes parent i) (after : a < i)
    (within : i + F.size ≤ t.size) :
    (F.roots i).flatMap (fun c => if a < c ∧ c < t.size then t.leaves c else []) = F.leaves := by
  induction F generalizing parent i a with
  | nil => rfl
  | leaf p next ih =>
    rw [size] at within
    have self : t.leaves i = [p] := by
      rw [Tree.leaves, lodged.token_leaf]
    rw [roots, List.flatMap_cons, if_pos ⟨after, by omega⟩, self, leaves,
      ih lodged.2 (by omega) (by omega), List.singleton_append]
  | node r s below next ihBelow ihNext =>
    rw [size] at within
    have self : t.leaves i = below.leaves := by
      rw [Tree.leaves, lodged.holds.token, lodged.holds.children]
      exact ihBelow lodged.2.1 (Nat.lt_succ_self i) (by omega)
    rw [roots, List.flatMap_cons, if_pos ⟨after, by omega⟩, self, leaves,
      ihNext lodged.2.2 (by omega) (by omega)]

end Lodged

end Forest

theorem Tree.Holds.unique {t : Tree} {n s s' : Nat} {r r' : Rule} {below below' : Forest}
    (first : t.Holds n r s below) (second : t.Holds n r' s' below') : below = below' :=
  first.2.unique second.2 (first.children.symm.trans second.children)

namespace Tree

variable {t : Tree} {a b n p : Nat}

theorem lt_size_of_parent (parent : t.parent? n = some p) : n < t.size := by
  rcases Nat.lt_or_ge n t.size with lt | ge
  · exact lt
  · have absent : t.nodes[n]? = none := Array.getElem?_eq_none ge
    simp [parent?, absent] at parent

theorem ancestors_cons (parent : t.parent? n = some p) (lt : p < n) :
    t.ancestors n = p :: t.ancestors p := by
  rw [ancestors, parent]
  simp only [lt, if_true]

theorem mem_ancestors (member : a ∈ t.ancestors n) :
    ∃ p, t.parent? n = some p ∧ p < n ∧ a ∈ p :: t.ancestors p := by
  rw [ancestors] at member
  split at member
  · rename_i p parent
    split at member
    · rename_i lt
      exact ⟨p, parent, lt, member⟩
    · exact absurd member List.not_mem_nil
  · exact absurd member List.not_mem_nil

theorem parent_mem_ancestors (parent : t.parent? n = some p) (lt : p < n) : p ∈ t.ancestors n := by
  rw [ancestors_cons parent lt]
  exact List.mem_cons_self

/-- An ancestor is the parent or above it. -/
theorem mem_ancestors_parent {parent : Option Nat} (up : t.parent? n = parent)
    (member : a ∈ t.ancestors n) : ∃ p, parent = some p ∧ a ∈ p :: t.ancestors p := by
  obtain ⟨p, found, _, member⟩ := mem_ancestors member
  exact ⟨p, up.symm.trans found, member⟩

theorem lt_of_mem_ancestors (member : a ∈ t.ancestors n) : a < n := by
  induction n using Nat.strongRecOn with
  | _ n ih =>
    obtain ⟨p, _, lt, member⟩ := mem_ancestors member
    rcases List.mem_cons.mp member with rfl | member
    · exact lt
    · exact Nat.lt_trans (ih p lt member) lt

theorem ancestors_trans (first : a ∈ t.ancestors b) (second : b ∈ t.ancestors n) :
    a ∈ t.ancestors n := by
  induction n using Nat.strongRecOn with
  | _ n ih =>
    obtain ⟨p, parent, lt, member⟩ := mem_ancestors second
    rw [ancestors_cons parent lt]
    rcases List.mem_cons.mp member with rfl | member
    · exact List.mem_cons_of_mem _ first
    · exact List.mem_cons_of_mem _ (ih p lt member)

/-- Ancestors are listed from the nearest to the farthest. -/
theorem pairwise_ancestors (t : Tree) (n : Nat) : (t.ancestors n).Pairwise (· > ·) := by
  induction n using Nat.strongRecOn with
  | _ n ih =>
    rw [ancestors]
    split
    · split
      · rename_i p parent lt
        exact List.pairwise_cons.mpr ⟨fun a member => lt_of_mem_ancestors member, ih p lt⟩
      · exact List.Pairwise.nil
    · exact List.Pairwise.nil

end Tree

namespace Forest.Lodged

variable {t : Tree} {F : Forest} {parent : Option Nat} {i n a : Nat}

theorem parent_root {c : Nat} (lodged : F.Lodged t.nodes parent i) (member : c ∈ F.roots i) :
    t.parent? c = parent := by
  induction F generalizing i with
  | nil => exact absurd member List.not_mem_nil
  | leaf p next ih =>
    rcases List.mem_cons.mp member with rfl | member
    · simp [Tree.parent?, lodged.1]
    · exact ih lodged.2 member
  | node r s below next _ ih =>
    rcases List.mem_cons.mp member with rfl | member
    · simp [Tree.parent?, lodged.1]
    · exact ih lodged.2.2 member

/-- A node of a row is one of its trees or right below a rule in it. -/
theorem child_of (lodged : F.Lodged t.nodes parent i) (lower : i ≤ n) (upper : n < i + F.size) :
    n ∈ F.roots i ∨ ∃ a r s below, t.Holds a r s below ∧ n ∈ below.roots (a + 1) ∧
      ∀ p, F.Every p → p r s below := by
  induction F generalizing parent i with
  | nil =>
    rw [size] at upper
    omega
  | leaf p next ih =>
    rw [size] at upper
    rcases Nat.eq_or_lt_of_le lower with rfl | later
    · exact .inl List.mem_cons_self
    · rcases ih lodged.2 later (by omega) with root | inside
      · exact .inl (List.mem_cons_of_mem _ root)
      · exact .inr inside
  | node r s below next ihBelow ihNext =>
    rw [size] at upper
    rcases Nat.eq_or_lt_of_le lower with rfl | later
    · exact .inl List.mem_cons_self
    by_cases inside : n < i + 1 + below.size
    · rcases ihBelow lodged.2.1 later inside with root | ⟨a, r', s', below', held, child, every⟩
      · exact .inr ⟨i, r, s, below, lodged.holds, root, fun _ each => each.1⟩
      · exact .inr ⟨a, r', s', below', held, child, fun p each => every p each.2.1⟩
    · rcases ihNext lodged.2.2 (by omega) (by omega) with
        root | ⟨a, r', s', below', held, child, every⟩
      · exact .inl (List.mem_cons_of_mem _ root)
      · exact .inr ⟨a, r', s', below', held, child, fun p each => every p each.2.2⟩

/-- What a row is below, every node of the row is below. -/
theorem mem_ancestors (lodged : F.Lodged t.nodes (some a) i) (after : a < i) (lower : i ≤ n)
    (upper : n < i + F.size) : a ∈ t.ancestors n := by
  induction F generalizing a i with
  | nil =>
    rw [size] at upper
    omega
  | leaf p next ih =>
    rw [size] at upper
    rcases Nat.eq_or_lt_of_le lower with rfl | later
    · exact Tree.parent_mem_ancestors (lodged.parent_root List.mem_cons_self) after
    · exact ih lodged.2 (by omega) later (by omega)
  | node r s below next ihBelow ihNext =>
    rw [size] at upper
    have self := Tree.parent_mem_ancestors (lodged.parent_root List.mem_cons_self) after
    rcases Nat.eq_or_lt_of_le lower with rfl | later
    · exact self
    by_cases inside : n < i + 1 + below.size
    · exact Tree.ancestors_trans self (ihBelow lodged.2.1 (by omega) later inside)
    · exact ihNext lodged.2.2 (by omega) (by omega) (by omega)

/-- An ancestor of a node of a row is above the row or holds the node. -/
theorem ancestor_cases (lodged : F.Lodged t.nodes parent i) (lower : i ≤ n)
    (upper : n < i + F.size) (member : a ∈ t.ancestors n) :
    (∃ p, parent = some p ∧ a ∈ p :: t.ancestors p) ∨
      i ≤ a ∧ ∃ r s below, t.Holds a r s below ∧ n ≤ a + below.size := by
  induction F generalizing parent i with
  | nil =>
    rw [size] at upper
    omega
  | leaf p next ih =>
    rw [size] at upper
    rcases Nat.eq_or_lt_of_le lower with rfl | later
    · exact .inl (Tree.mem_ancestors_parent (lodged.parent_root List.mem_cons_self) member)
    · rcases ih lodged.2 later (by omega) with above | ⟨lower, held⟩
      · exact .inl above
      · exact .inr ⟨by omega, held⟩
  | node r s below next ihBelow ihNext =>
    rw [size] at upper
    have up := lodged.parent_root List.mem_cons_self
    rcases Nat.eq_or_lt_of_le lower with rfl | later
    · exact .inl (Tree.mem_ancestors_parent up member)
    by_cases inside : n < i + 1 + below.size
    · rcases ihBelow lodged.2.1 later inside with ⟨p, same, above⟩ | ⟨lower, held⟩
      · obtain rfl := Option.some.inj same
        rcases List.mem_cons.mp above with rfl | above
        · exact .inr ⟨Nat.le_refl _, r, s, below, lodged.holds, by omega⟩
        · exact .inl (Tree.mem_ancestors_parent up above)
      · exact .inr ⟨by omega, held⟩
    · rcases ihNext lodged.2.2 (by omega) (by omega) with above | ⟨lower, held⟩
      · exact .inl above
      · exact .inr ⟨by omega, held⟩

/-- The nodes below a node come right after it. -/
theorem mem_ancestors_iff {s : Nat} {r : Rule} {below : Forest} (lodged : F.Lodged t.nodes none 0)
    (size : t.size = F.size) (held : t.Holds a r s below) :
    a ∈ t.ancestors n ↔ a < n ∧ n ≤ a + below.size := by
  constructor
  · intro member
    have lt := Tree.lt_of_mem_ancestors member
    obtain ⟨p, parent, _, _⟩ := Tree.mem_ancestors member
    have present : n < 0 + F.size := by
      have inside := Tree.lt_size_of_parent parent
      omega
    rcases lodged.ancestor_cases (Nat.zero_le n) present member with
      ⟨_, above, _⟩ | ⟨_, r', s', below', held', inside⟩
    · exact absurd above (by simp)
    · rw [held.unique held']
      exact ⟨lt, inside⟩
  · rintro ⟨lt, inside⟩
    exact held.2.mem_ancestors (Nat.lt_succ_self a) lt (by omega)

end Forest.Lodged

end SoqlAssist
