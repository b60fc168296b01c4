import SoqlAssist.Grammar.Rule
import SoqlAssist.Token.Basic

/-!
Syntax trees. The nodes stand in one array in the order in which they were opened, so a parent
comes before its children, and each node names its parent and its children by their positions. A
node also records the tokens that it spans.

Lookups that go up or down the tree follow a link only if it goes the right way in the array, which
every link of a built tree does; so they end on any array of nodes.
-/
namespace SoqlAssist

inductive NodeKind where
  | rule (r : Rule)
  /-- A token, by its position in the stream. -/
  | token (position : Nat)
  deriving DecidableEq, Repr

structure Node where
  kind : NodeKind
  parent : Option Nat
  children : Array Nat
  /-- The position of the first visible token when the node was opened. -/
  start : Nat
  /-- The position of the last token below the node, if there is one. -/
  stop : Option Nat
  deriving DecidableEq, Repr

/-- A syntax tree: its nodes, parents first. -/
structure Tree where
  nodes : Array Node
  deriving DecidableEq, Repr

namespace Tree

def size (t : Tree) : Nat :=
  t.nodes.size

def rule? (t : Tree) (id : Nat) : Option Rule :=
  match t.nodes[id]? with
  | some { kind := .rule r, .. } => some r
  | _ => none

def token? (t : Tree) (id : Nat) : Option Nat :=
  match t.nodes[id]? with
  | some { kind := .token i, .. } => some i
  | _ => none

/-- The position of the first visible token when a node was opened. -/
def start? (t : Tree) (id : Nat) : Option Nat :=
  t.nodes[id]?.map (·.start)

/-- The position of the last token below a node. -/
def stop? (t : Tree) (id : Nat) : Option Nat :=
  t.nodes[id]?.bind (·.stop)

def parent? (t : Tree) (id : Nat) : Option Nat :=
  t.nodes[id]?.bind (·.parent)

def children (t : Tree) (id : Nat) : List Nat :=
  match t.nodes[id]? with
  | some node => node.children.toList
  | none => []

def child? (t : Tree) (id i : Nat) : Option Nat :=
  (t.children id)[i]?

def childrenFor (t : Tree) (id : Nat) (r : Rule) : List Nat :=
  (t.children id).filter (t.rule? · == some r)

def ancestors (t : Tree) (id : Nat) : List Nat :=
  match t.parent? id with
  | some p => if p < id then p :: ancestors t p else []
  | none => []
termination_by id

/-- The nearest node, from the node itself upwards, whose rule has a property. -/
def enclosing? (t : Tree) (id : Nat) (p : Rule → Bool) : Option Nat :=
  (id :: t.ancestors id).find? fun n => (t.rule? n).any p

def leaves (t : Tree) (id : Nat) : List Nat :=
  match t.token? id with
  | some i => [i]
  | none => (t.children id).flatMap fun c => if id < c ∧ c < t.size then leaves t c else []
termination_by t.size - id

def text (t : Tree) (id : Nat) (tokens : TokenStream) : String :=
  String.join ((t.leaves id).map fun i => (tokens[i]?.map (·.text)).getD "")

end Tree

end SoqlAssist
