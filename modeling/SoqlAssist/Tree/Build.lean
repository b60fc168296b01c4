import SoqlAssist.Tree.Basic

/-!
Building a tree step by step. Rules are opened and closed in the manner of brackets and tokens join
the innermost open rule. Any sequence of steps builds a tree: to close with no rule open does
nothing, and the rules left open at the end are closed then.
-/
namespace SoqlAssist

inductive TreeStep where
  /-- Opens a rule whose first token is at a position. -/
  | start (rule : Rule) (position : Nat)
  /-- Adds the token at a position. -/
  | token (position : Nat)
  /-- Closes the innermost open rule. -/
  | finish
  deriving DecidableEq, Repr

structure TreeBuilder where
  nodes : Array Node
  /-- The open rules, innermost first. -/
  opened : List Nat
  deriving DecidableEq, Repr

namespace TreeBuilder

def empty : TreeBuilder := ⟨#[], []⟩

def addNode (nodes : Array Node) (parent : Option Nat) (kind : NodeKind) (start : Nat)
    (stop : Option Nat) : Array Node :=
  let id := nodes.size
  let nodes := nodes.push ⟨kind, parent, #[], start, stop⟩
  match parent with
  | some p => nodes.modify p fun n => { n with children := n.children.push id }
  | none => nodes

def startRule (b : TreeBuilder) (rule : Rule) (position : Nat) : TreeBuilder :=
  let ⟨nodes, opened⟩ := b
  let id := nodes.size
  ⟨addNode nodes opened.head? (.rule rule) position none, id :: opened⟩

def addToken (b : TreeBuilder) (position : Nat) : TreeBuilder :=
  let ⟨nodes, opened⟩ := b
  ⟨addNode nodes opened.head? (.token position) position (some position), opened⟩

/-- The last token of a node's children: that of the last child that has one. -/
def lastStop (nodes : Array Node) (id : Nat) : Option Nat :=
  match nodes[id]? with
  | some node => node.children.toList.reverse.findSome? fun c => nodes[c]?.bind (·.stop)
  | none => none

/-- Closes the innermost open rule, whose last token is then known. -/
def finishRule (b : TreeBuilder) : TreeBuilder :=
  match b with
  | ⟨nodes, []⟩ => ⟨nodes, []⟩
  | ⟨nodes, id :: rest⟩ =>
    let stop := lastStop nodes id
    ⟨nodes.modify id fun n => { n with stop := stop }, rest⟩

def finishAll (b : TreeBuilder) : TreeBuilder :=
  b.opened.foldl (fun b _ => b.finishRule) b

def step (b : TreeBuilder) : TreeStep → TreeBuilder
  | .start rule position => b.startRule rule position
  | .token position => b.addToken position
  | .finish => b.finishRule

/-- The node that a step adds. -/
def added? (b : TreeBuilder) : TreeStep → Option Nat
  | .start _ _ | .token _ => some b.nodes.size
  | .finish => none

def run (b : TreeBuilder) (steps : List TreeStep) : TreeBuilder :=
  steps.foldl step b

def toTree (b : TreeBuilder) : Tree :=
  ⟨b.finishAll.nodes⟩

end TreeBuilder

def Tree.ofSteps (steps : List TreeStep) : Tree :=
  (TreeBuilder.empty.run steps).toTree

end SoqlAssist
