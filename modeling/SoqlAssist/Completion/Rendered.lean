import SoqlAssist.Completion.Item

/-!
Suggestions as editors take them: the kind is a number, every template is marked as one, and the
hint travels in a field for the client's own data.
-/
namespace SoqlAssist

/-- A suggestion in the form of the editor protocol. -/
structure RenderedItem where
  label : String
  kind : Nat
  insertText : Option String
  /-- How the text is inserted: `2` for a template. -/
  insertTextFormat : Option Nat
  preselect : Option Bool
  sortText : Option String
  data : Option Data
  deriving Repr

namespace RenderedItem

def kindNumber : ItemKind → Nat
  | .function => 3
  | .field => 5
  | .object => 7
  | .value => 12
  | .keyword => 14
  | .snippet => 15
  | .constant => 21

def template : Nat := 2

def hintKey : String := "soqlContext"

def ofItem (item : CompletionItem) : RenderedItem where
  label := item.label
  kind := kindNumber item.kind
  insertText := item.insertText
  insertTextFormat := item.insertText.map fun _ => template
  preselect := if item.preselect then some true else none
  sortText := item.sortText
  data := item.hint.map fun hint => .record [(hintKey, hint.toData)]

def hint? (item : RenderedItem) : Option Hint :=
  match item.data with
  | some (.record fields) => (fields.lookup hintKey).bind Hint.ofData?
  | _ => none

def toData (item : RenderedItem) : Data :=
  .present
    [("label", some (.text item.label)),
      ("kind", some (.nat item.kind)),
      ("insertText", item.insertText.map .text),
      ("insertTextFormat", item.insertTextFormat.map .nat),
      ("preselect", item.preselect.map .bool),
      ("sortText", item.sortText.map .text),
      ("data", item.data)]

end RenderedItem

end SoqlAssist
