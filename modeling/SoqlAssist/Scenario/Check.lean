import SoqlAssist.Completion.Rendered

/-!
Checks on rendered suggestions by their labels.
-/
namespace SoqlAssist.Scenario

def find? (items : List RenderedItem) (label : String) : Option RenderedItem :=
  items.find? (·.label == label)

def contains (items : List RenderedItem) (label : String) : Bool :=
  (find? items label).isSome

def lacks (items : List RenderedItem) (label : String) : Bool :=
  items.all (·.label != label)

def hasCount (items : List RenderedItem) (label : String) (n : Nat) : Bool :=
  items.countP (·.label == label) == n

def hintOf? (items : List RenderedItem) (label : String) : Option Hint :=
  (find? items label).bind (·.hint?)

end SoqlAssist.Scenario
