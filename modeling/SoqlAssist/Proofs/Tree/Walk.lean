import SoqlAssist.Proofs.Tree.Order
import SoqlAssist.Tree.Walk

/-!
The walk over a tree that holds a forest. It is the walk over the forest itself; so its budget is
enough, and it enters the nodes for rules in the order of the array.
-/
namespace SoqlAssist

namespace Forest

def visits : Forest → (i : Nat) → List Visit
  | .nil, _ => []
  | .leaf _ next, i => next.visits (i + 1)
  | .node r _ below next, i =>
    .enter i r :: (below.visits (i + 1) ++ .leave i r :: next.visits (i + 1 + below.size))

/-- The steps of a walk: a rule is met twice and a token once. -/
def stepCount : Forest → Nat
  | .nil => 0
  | .leaf _ next => next.stepCount + 1
  | .node _ _ below next => below.stepCount + next.stepCount + 2

theorem stepCount_le (F : Forest) : F.stepCount ≤ 2 * F.size := by
  induction F with
  | nil => exact Nat.le_refl 0
  | leaf p next ih =>
    rw [stepCount, size]
    omega
  | node r s below next ihBelow ihNext =>
    rw [stepCount, size]
    omega

namespace Lodged

variable {t : Tree} {F : Forest} {parent : Option Nat} {i : Nat}

theorem rule_leaf {p : Nat} {next : Forest}
    (lodged : (Forest.leaf p next).Lodged t.nodes parent i) : t.rule? i = none := by
  simp [Tree.rule?, lodged.1]

theorem walkFrom_roots (lodged : F.Lodged t.nodes parent i) (budget : Nat)
    (rest : List Tree.Pending) :
    t.walkFrom (F.stepCount + budget) ((F.roots i).map .enter ++ rest) =
      F.visits i ++ t.walkFrom budget rest := by
  induction F generalizing parent i budget rest with
  | nil => simp [stepCount, roots, visits]
  | leaf p next ih =>
    have count : next.stepCount + 1 + budget = (next.stepCount + budget) + 1 := by omega
    rw [roots, stepCount, count, List.map_cons, List.cons_append, Tree.walkFrom, lodged.rule_leaf]
    exact ih lodged.2 budget rest
  | node r s below next ihBelow ihNext =>
    have count : below.stepCount + next.stepCount + 2 + budget =
        (below.stepCount + (next.stepCount + budget + 1)) + 1 := by omega
    have held := lodged.holds
    rw [roots, stepCount, count, List.map_cons, List.cons_append, Tree.walkFrom, held.rule,
      visits]
    simp only [held.children]
    rw [ihBelow lodged.2.1, Tree.walkFrom, held.rule]
    simp only
    rw [ihNext lodged.2.2, List.cons_append, List.append_assoc, List.cons_append]

/-- A walk enters the nodes for rules in the order of the array. -/
theorem filterMap_entered (lodged : F.Lodged t.nodes parent i) :
    (F.visits i).filterMap Visit.entered? =
      (List.range' i F.size).filterMap fun n => (t.rule? n).map (n, ·) := by
  induction F generalizing parent i with
  | nil => rfl
  | leaf p next ih =>
    rw [visits, size, List.range'_succ, List.filterMap_cons_none (by simp [lodged.rule_leaf])]
    exact ih lodged.2
  | node r s below next ihBelow ihNext =>
    have entered : Visit.entered? (.enter i r) = some (i, r) := rfl
    have left : Visit.entered? (.leave i r) = none := rfl
    rw [visits, List.filterMap_cons_some entered, List.filterMap_append,
      List.filterMap_cons_none left, ihBelow lodged.2.1, ihNext lodged.2.2, size,
      List.range'_succ, ← List.range'_append_1]
    simp only [List.filterMap_cons, lodged.holds.rule, Option.map_some, List.filterMap_append]

end Lodged

end Forest

namespace Tree

variable {t : Tree} {r : Rule} {s : Nat} {below : Forest}

theorem walkFrom_nil (t : Tree) (budget : Nat) : t.walkFrom budget [] = [] := by
  cases budget <;> rfl

theorem Holds.lodged (held : t.Holds 0 r s below) :
    ∃ parent, (Forest.node r s below .nil).Lodged t.nodes parent 0 := by
  obtain ⟨⟨parent, found⟩, inside⟩ := held
  exact ⟨parent, found, inside, trivial⟩

/-- The walk is over the first node and what is below it. -/
theorem walk_of_holds (held : t.Holds 0 r s below) (within : below.size < t.size) :
    t.walk = (Forest.node r s below .nil).visits 0 := by
  obtain ⟨parent, lodged⟩ := held.lodged
  have enough := (Forest.node r s below .nil).stepCount_le
  have size : (Forest.node r s below .nil).size = below.size + 1 := rfl
  have count : 2 * t.size = (Forest.node r s below .nil).stepCount +
      (2 * t.size - (Forest.node r s below .nil).stepCount) := by omega
  have walked := lodged.walkFrom_roots
    (2 * t.size - (Forest.node r s below .nil).stepCount) []
  rw [walkFrom_nil, List.append_nil, List.append_nil, ← count] at walked
  exact walked

/-- The walk over a tree is the walk over the forest that it holds. -/
theorem walk_eq (size : t.size = (Forest.node r s below .nil).size)
    (lodged : (Forest.node r s below .nil).Lodged t.nodes none 0) :
    t.walk = (Forest.node r s below .nil).visits 0 :=
  walk_of_holds lodged.holds (by rw [size]; exact Nat.lt_succ_self _)

theorem ruleNodes_eq (size : t.size = (Forest.node r s below .nil).size)
    (lodged : (Forest.node r s below .nil).Lodged t.nodes none 0) :
    t.ruleNodes = (List.range t.size).filterMap fun n => (t.rule? n).map (n, ·) := by
  rw [ruleNodes, walk_eq size lodged, lodged.filterMap_entered, ← size, List.range_eq_range']

end Tree

end SoqlAssist
