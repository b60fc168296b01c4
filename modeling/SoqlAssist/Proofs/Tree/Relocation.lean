import SoqlAssist.Tree.Build

/-!
Moving the tokens of a tree. The builder never looks at a position, it only passes positions on; so
a tree built from steps at other positions is the same tree with these positions, whatever the map
between the two.
-/
namespace SoqlAssist

variable {f : Nat → Nat}

namespace NodeKind

def relocate (f : Nat → Nat) : NodeKind → NodeKind
  | .rule r => .rule r
  | .token position => .token (f position)

end NodeKind

namespace Node

def relocate (f : Nat → Nat) (n : Node) : Node :=
  { n with kind := n.kind.relocate f, start := f n.start, stop := n.stop.map f }

end Node

namespace Tree

def relocate (f : Nat → Nat) (t : Tree) : Tree :=
  ⟨t.nodes.map (Node.relocate f)⟩

end Tree

namespace TreeStep

def relocate (f : Nat → Nat) : TreeStep → TreeStep
  | .start rule position => .start rule (f position)
  | .token position => .token (f position)
  | .finish => .finish

end TreeStep

namespace TreeBuilder

def relocate (f : Nat → Nat) (b : TreeBuilder) : TreeBuilder :=
  ⟨b.nodes.map (Node.relocate f), b.opened⟩

/-- A change of one node that does not depend on positions can be made after the move. -/
theorem modify_relocate (nodes : Array Node) (id : Nat) {g h : Node → Node}
    (commutes : ∀ n, h (n.relocate f) = (g n).relocate f) :
    (nodes.map (Node.relocate f)).modify id h = (nodes.modify id g).map (Node.relocate f) := by
  apply Array.ext_getElem?
  intro j
  rw [Array.getElem?_modify, Array.getElem?_map, Array.getElem?_map, Array.getElem?_modify]
  by_cases same : id = j
  · rw [if_pos same, if_pos same, Option.map_map, Option.map_map]
    congr 1
    funext n
    exact commutes n
  · rw [if_neg same, if_neg same]

theorem addNode_relocate (nodes : Array Node) (parent : Option Nat) (kind : NodeKind) (start : Nat)
    (stop : Option Nat) :
    addNode (nodes.map (Node.relocate f)) parent (kind.relocate f) (f start) (stop.map f) =
      (addNode nodes parent kind start stop).map (Node.relocate f) := by
  have push : (nodes.map (Node.relocate f)).push
        ⟨kind.relocate f, parent, #[], f start, stop.map f⟩ =
      (nodes.push ⟨kind, parent, #[], start, stop⟩).map (Node.relocate f) := by
    rw [Array.map_push]
    rfl
  cases parent with
  | none => exact push
  | some p =>
    rw [addNode, push, Array.size_map]
    exact modify_relocate _ _ fun _ => rfl

theorem lastStop_relocate (nodes : Array Node) (id : Nat) :
    lastStop (nodes.map (Node.relocate f)) id = (lastStop nodes id).map f := by
  simp only [lastStop, Array.getElem?_map]
  cases nodes[id]? with
  | none => rfl
  | some node =>
    simp only [Option.map_some, Node.relocate, List.map_findSome?]
    congr 1
    funext c
    rw [Function.comp_apply]
    cases nodes[c]? <;> rfl

theorem finishRule_relocate (b : TreeBuilder) :
    (b.relocate f).finishRule = b.finishRule.relocate f := by
  obtain ⟨nodes, opened⟩ := b
  cases opened with
  | nil => rfl
  | cons id rest =>
    simp only [relocate, finishRule, mk.injEq, and_true, lastStop_relocate]
    exact modify_relocate _ _ fun _ => rfl

theorem step_relocate (b : TreeBuilder) (s : TreeStep) :
    (b.relocate f).step (s.relocate f) = (b.step s).relocate f := by
  cases s with
  | start rule position =>
    simp only [step, TreeStep.relocate, startRule, relocate, Array.size_map, mk.injEq, and_true]
    exact addNode_relocate b.nodes b.opened.head? (.rule rule) position none
  | token position =>
    simp only [step, TreeStep.relocate, addToken, relocate, mk.injEq, and_true]
    exact addNode_relocate b.nodes b.opened.head? (.token position) position (some position)
  | finish => exact finishRule_relocate b

theorem run_relocate (b : TreeBuilder) (steps : List TreeStep) :
    (b.relocate f).run (steps.map (TreeStep.relocate f)) = (b.run steps).relocate f := by
  induction steps generalizing b with
  | nil => rfl
  | cons s steps ih =>
    simp only [run, List.map_cons, List.foldl_cons, step_relocate]
    exact ih (b.step s)

theorem finishAll_relocate (b : TreeBuilder) :
    (b.relocate f).finishAll = b.finishAll.relocate f := by
  have closed (ids : List Nat) (b : TreeBuilder) :
      ids.foldl (fun b _ => b.finishRule) (b.relocate f) =
        (ids.foldl (fun b _ => b.finishRule) b).relocate f := by
    induction ids generalizing b with
    | nil => rfl
    | cons _ ids ih =>
      rw [List.foldl_cons, List.foldl_cons, finishRule_relocate]
      exact ih b.finishRule
  exact closed b.opened b

end TreeBuilder

/-- Steps at moved positions build the moved tree. -/
theorem Tree.ofSteps_relocate (steps : List TreeStep) :
    ofSteps (steps.map (TreeStep.relocate f)) = (ofSteps steps).relocate f := by
  have start : TreeBuilder.empty.relocate f = TreeBuilder.empty := by
    simp [TreeBuilder.relocate, TreeBuilder.empty]
  have built := TreeBuilder.run_relocate (f := f) TreeBuilder.empty steps
  rw [start] at built
  rw [ofSteps, built, TreeBuilder.toTree, TreeBuilder.finishAll_relocate]
  rfl

end SoqlAssist
