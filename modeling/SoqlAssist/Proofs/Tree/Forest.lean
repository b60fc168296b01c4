import SoqlAssist.Tree.Build

/-!
The shape that a sequence of steps describes. A forest is a row of trees; its steps open, fill and
close them from left to right. Building from these steps lays the forest out in the array: each node
at the number of nodes before it, with its parent, its children and the last token below it.
-/
namespace SoqlAssist

/-- A row of trees: a token or a rule with the trees below it, and the trees next to it. -/
inductive Forest where
  | nil
  | leaf (position : Nat) (next : Forest)
  | node (rule : Rule) (start : Nat) (below next : Forest)
  deriving DecidableEq, Repr

namespace Forest

def append : Forest → Forest → Forest
  | .nil, G => G
  | .leaf p next, G => .leaf p (append next G)
  | .node r s below next, G => .node r s below (append next G)

instance : Append Forest := ⟨append⟩

def size : Forest → Nat
  | .nil => 0
  | .leaf _ next => next.size + 1
  | .node _ _ below next => below.size + next.size + 1

def leaves : Forest → List Nat
  | .nil => []
  | .leaf p next => p :: next.leaves
  | .node _ _ below next => below.leaves ++ next.leaves

/-- The places of the trees of the row when the first node is at `i`. -/
def roots : Forest → (i : Nat) → List Nat
  | .nil, _ => []
  | .leaf _ next, i => i :: next.roots (i + 1)
  | .node _ _ below next, i => i :: next.roots (i + 1 + below.size)

def steps : Forest → List TreeStep
  | .nil => []
  | .leaf p next => .token p :: next.steps
  | .node r s below next => .start r s :: (below.steps ++ .finish :: next.steps)

section Append

variable (F G : Forest) (p : Nat) (r : Rule) (s : Nat)

@[simp] theorem nil_append : .nil ++ G = G := rfl

@[simp] theorem leaf_append : .leaf p F ++ G = .leaf p (F ++ G) := rfl

@[simp] theorem node_append (below : Forest) :
    .node r s below F ++ G = .node r s below (F ++ G) := rfl

@[simp] theorem append_nil : F ++ .nil = F := by
  induction F with
  | nil => rfl
  | leaf p next ih => rw [leaf_append, ih]
  | node r s below next _ ih => rw [node_append, ih]

@[simp] theorem size_append : (F ++ G).size = F.size + G.size := by
  induction F with
  | nil => simp [size]
  | leaf p next ih =>
    rw [leaf_append, size, size, ih]
    omega
  | node r s below next _ ih =>
    rw [node_append, size, size, ih]
    omega

@[simp] theorem leaves_append : (F ++ G).leaves = F.leaves ++ G.leaves := by
  induction F with
  | nil => rfl
  | leaf p next ih => rw [leaf_append, leaves, leaves, ih, List.cons_append]
  | node r s below next _ ih => rw [node_append, leaves, leaves, ih, List.append_assoc]

theorem roots_append (i : Nat) : (F ++ G).roots i = F.roots i ++ G.roots (i + F.size) := by
  induction F generalizing i with
  | nil => rfl
  | leaf p next ih =>
    rw [leaf_append, roots, roots, ih, size, List.cons_append]
    congr 3
    omega
  | node r s below next _ ih =>
    rw [node_append, roots, roots, ih, size, List.cons_append]
    congr 3
    omega

@[simp] theorem steps_append : (F ++ G).steps = F.steps ++ G.steps := by
  induction F with
  | nil => rfl
  | leaf p next ih => rw [leaf_append, steps, steps, ih, List.cons_append]
  | node r s below next _ ih =>
    rw [node_append, steps, steps, ih]
    simp only [List.append_assoc, List.cons_append]

end Append

/-- The forest stands in the array from `i` on, its trees below `parent`. -/
def Lodged (nodes : Array Node) (parent : Option Nat) (i : Nat) : Forest → Prop
  | .nil => True
  | .leaf p next =>
    nodes[i]? = some ⟨.token p, parent, #[], p, some p⟩ ∧ Lodged nodes parent (i + 1) next
  | .node r s below next =>
    nodes[i]? = some ⟨.rule r, parent, (below.roots (i + 1)).toArray, s, below.leaves.getLast?⟩ ∧
      Lodged nodes (some i) (i + 1) below ∧ Lodged nodes parent (i + 1 + below.size) next

namespace Lodged

variable {nodes nodes' : Array Node} {parent : Option Nat} {i : Nat} {F G : Forest}

/-- Only the places that the forest takes matter. -/
theorem congr (lodged : Lodged nodes parent i F)
    (same : ∀ j, i ≤ j → j < i + F.size → nodes'[j]? = nodes[j]?) : Lodged nodes' parent i F := by
  induction F generalizing parent i with
  | nil => trivial
  | leaf p next ih =>
    rw [size] at same
    refine ⟨(same i (by omega) (by omega)).trans lodged.1, ih lodged.2 ?_⟩
    intro j lower upper
    exact same j (by omega) (by omega)
  | node r s below next ihBelow ihNext =>
    rw [size] at same
    refine ⟨(same i (by omega) (by omega)).trans lodged.1, ihBelow lodged.2.1 ?_,
      ihNext lodged.2.2 ?_⟩
    · intro j lower upper
      exact same j (by omega) (by omega)
    · intro j lower upper
      exact same j (by omega) (by omega)

theorem append_iff : Lodged nodes parent i (F ++ G) ↔
    Lodged nodes parent i F ∧ Lodged nodes parent (i + F.size) G := by
  induction F generalizing i with
  | nil => simp [Lodged, size]
  | leaf p next ih =>
    have place : i + 1 + next.size = i + (next.size + 1) := by omega
    simp only [leaf_append, Lodged, ih, size, place, and_assoc]
  | node r s below next _ ih =>
    have place : i + 1 + below.size + next.size = i + (below.size + next.size + 1) := by omega
    simp only [node_append, Lodged, ih, size, place, and_assoc]

/-- The last token of the row is that of its last tree that has one. -/
theorem findSome_stop (lodged : Lodged nodes parent i F) :
    (F.roots i).reverse.findSome? (fun c => nodes[c]?.bind (·.stop)) = F.leaves.getLast? := by
  induction F generalizing i with
  | nil => rfl
  | leaf p next ih =>
    rw [roots, List.reverse_cons, List.findSome?_append, ih lodged.2, leaves, List.getLast?_cons]
    cases next.leaves.getLast? <;> simp [lodged.1]
  | node r s below next _ ih =>
    rw [roots, List.reverse_cons, List.findSome?_append, ih lodged.2.2, leaves,
      List.getLast?_append]
    simp [lodged.1]

end Lodged

end Forest

end SoqlAssist
