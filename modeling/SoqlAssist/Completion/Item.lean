import SoqlAssist.Catalog.FieldType
import SoqlAssist.Data

/-!
Suggestions. A suggestion whose values only the client knows, such as the fields of an object, is a
placeholder: a label that stands for them and a hint that says which are wanted. Suggestions and
hints are written as plain data with the fields that have a value, and read back from it.
-/
namespace SoqlAssist

inductive ItemKind where
  | keyword | field | function | snippet | value
  /-- An object or a relationship. -/
  | object
  | constant
  deriving DecidableEq, Repr

namespace ItemKind

def all : List ItemKind :=
  [.keyword, .field, .function, .snippet, .value, .object, .constant]

def name : ItemKind → String
  | .keyword => "keyword"
  | .field => "field"
  | .function => "function"
  | .snippet => "snippet"
  | .value => "value"
  | .object => "class"
  | .constant => "constant"

def ofName? (s : String) : Option ItemKind :=
  all.find? (·.name == s)

end ItemKind

/-- What a client needs to know to replace a placeholder. -/
structure Hint where
  objectName : String
  relationshipName : Option String := none
  fieldName : Option String := none
  onlyTypes : Option (List FieldType) := none
  onlyAggregatable : Option Bool := none
  onlyGroupable : Option Bool := none
  onlySortable : Option Bool := none
  onlyNillable : Option Bool := none
  /-- Names to rank first. -/
  mostLikely : Option (List String) := none
  hideRelationships : Option Bool := none
  deriving DecidableEq, Repr

namespace Hint

def forObject (objectName : String) : Hint := { objectName }

def forField (objectName fieldName : String) : Hint := { objectName, fieldName := some fieldName }

/-- The hint restricted to fields of some types. -/
def withTypes (h : Hint) (types : List FieldType) : Hint := { h with onlyTypes := some types }

def keys : List String :=
  ["sobjectName", "relationshipName", "fieldName", "onlyTypes", "onlyAggregatable",
    "onlyGroupable", "onlySortable", "onlyNillable", "mostLikelyItems",
    "dontShowRelationshipField"]

def toData (h : Hint) : Data :=
  .present
    [("sobjectName", some (.text h.objectName)),
      ("relationshipName", h.relationshipName.map .text),
      ("fieldName", h.fieldName.map .text),
      ("onlyTypes", h.onlyTypes.map fun ts => .texts (ts.map (·.name))),
      ("onlyAggregatable", h.onlyAggregatable.map .bool),
      ("onlyGroupable", h.onlyGroupable.map .bool),
      ("onlySortable", h.onlySortable.map .bool),
      ("onlyNillable", h.onlyNillable.map .bool),
      ("mostLikelyItems", h.mostLikely.map .texts),
      ("dontShowRelationshipField", h.hideRelationships.map .bool)]

def ofData? (d : Data) : Option Hint := do
  let fields ← d.fields? keys 1
  let value (key : String) := fields.lookup key
  pure {
    objectName := ← Data.required Data.text? (value "sobjectName")
    relationshipName := ← Data.optional Data.text? (value "relationshipName")
    fieldName := ← Data.optional Data.text? (value "fieldName")
    onlyTypes := ← Data.optional (Data.list? (Data.name? FieldType.ofName?)) (value "onlyTypes")
    onlyAggregatable := ← Data.optional Data.bool? (value "onlyAggregatable")
    onlyGroupable := ← Data.optional Data.bool? (value "onlyGroupable")
    onlySortable := ← Data.optional Data.bool? (value "onlySortable")
    onlyNillable := ← Data.optional Data.bool? (value "onlyNillable")
    mostLikely := ← Data.optional (Data.list? Data.text?) (value "mostLikelyItems")
    hideRelationships := ← Data.optional Data.bool? (value "dontShowRelationshipField") }

end Hint

structure CompletionItem where
  label : String
  kind : ItemKind
  /-- A template with numbered stops, if it is not the label that is inserted. -/
  insertText : Option String := none
  preselect : Bool := false
  sortText : Option String := none
  hint : Option Hint := none
  deriving DecidableEq, Repr

namespace CompletionItem

def keyword (label : String) : CompletionItem := { label, kind := .keyword }

def field (label : String) : CompletionItem := { label, kind := .field }

/-- A placeholder for objects or relationships. -/
def object (label : String) : CompletionItem := { label, kind := .object }

def value (label : String) : CompletionItem := { label, kind := .value }

/-- A placeholder for the known values of a field. -/
def constant (label : String) : CompletionItem := { label, kind := .constant }

def snippet (label template : String) : CompletionItem :=
  { label, kind := .snippet, insertText := some template }

/-- A call of a function, with a stop for its argument. -/
def function (name : String) : CompletionItem :=
  { label := name ++ "(...)", kind := .function, insertText := some (name ++ "($1)") }

def withHint (item : CompletionItem) (hint : Hint) : CompletionItem :=
  { item with hint := some hint }

/-- The item selected from the start and sorted before all others. -/
def preselectedFirst (item : CompletionItem) : CompletionItem :=
  { item with preselect := true, sortText := some (" " ++ item.label) }

/-- The item as a keyword with another label. -/
def sibling (item : CompletionItem) (label : String) : CompletionItem :=
  { item with label, kind := .keyword }

def keys : List String :=
  ["label", "kind", "insertText", "preselect", "sortText", "soqlContext"]

def toData (item : CompletionItem) : Data :=
  .present
    [("label", some (.text item.label)),
      ("kind", some (.text item.kind.name)),
      ("insertText", item.insertText.map .text),
      ("preselect", some (.bool item.preselect)),
      ("sortText", item.sortText.map .text),
      ("soqlContext", item.hint.map Hint.toData)]

def ofData? (d : Data) : Option CompletionItem := do
  let fields ← d.fields? keys 2
  let value (key : String) := fields.lookup key
  pure {
    label := ← Data.required Data.text? (value "label")
    kind := ← Data.required (Data.name? ItemKind.ofName?) (value "kind")
    insertText := ← Data.optional Data.text? (value "insertText")
    preselect := ← Data.orDefault false Data.bool? (value "preselect")
    sortText := ← Data.optional Data.text? (value "sortText")
    hint := ← Data.optional Hint.ofData? (value "soqlContext") }

end CompletionItem

namespace Placeholder

def objects : String := "__SOBJECTS_PLACEHOLDER"

def objectFields : String := "__SOBJECT_FIELDS_PLACEHOLDER"

/-- Stands for the relationships to the children of an object. -/
def relationships : String := "__RELATIONSHIPS_PLACEHOLDER"

/-- Stands for the fields at the other end of a relationship of an object. -/
def relationshipFields : String := "__RELATIONSHIP_FIELDS_PLACEHOLDER"

def literalValues : String := "__LITERAL_VALUES_FOR_FIELD"

end Placeholder

end SoqlAssist
