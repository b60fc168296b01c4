import SoqlAssist.Tree.Basic

/-!
Walks over a tree. A walk starts at the first node and enters and leaves every node for a rule,
children between the two from left to right. It keeps the nodes still to be visited on a stack; no
node is taken from it more than twice, which bounds the number of steps.
-/
namespace SoqlAssist

inductive Visit where
  | enter (id : Nat) (rule : Rule)
  | leave (id : Nat) (rule : Rule)
  deriving DecidableEq, Repr

namespace Visit

def entered? : Visit → Option (Nat × Rule)
  | .enter id rule => some (id, rule)
  | .leave _ _ => none

def describe : Visit → String
  | .enter id rule => s!"enter {id} {rule.title}"
  | .leave id rule => s!"exit {id} {rule.title}"

end Visit

namespace Tree

/-- What a walk still has to do with a node. -/
inductive Pending where
  | enter (id : Nat)
  | leave (id : Nat)
  deriving DecidableEq, Repr

/-- The visits of at most `budget` steps with the given nodes still to be visited. -/
def walkFrom (t : Tree) : (budget : Nat) → List Pending → List Visit
  | 0, _ => []
  | _, [] => []
  | budget + 1, .leave id :: rest =>
    match t.rule? id with
    | some rule => .leave id rule :: walkFrom t budget rest
    | none => walkFrom t budget rest
  | budget + 1, .enter id :: rest =>
    match t.rule? id with
    | some rule =>
      .enter id rule ::
        walkFrom t budget ((t.children id).map .enter ++ .leave id :: rest)
    | none => walkFrom t budget rest

def walk (t : Tree) : List Visit :=
  t.walkFrom (2 * t.size) [.enter 0]

/-- The nodes for rules, in the order in which a walk enters them. -/
def ruleNodes (t : Tree) : List (Nat × Rule) :=
  t.walk.filterMap Visit.entered?

end Tree

end SoqlAssist
