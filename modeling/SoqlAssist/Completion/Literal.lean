import SoqlAssist.Catalog.DateRange
import SoqlAssist.Catalog.Operator
import SoqlAssist.Completion.Item
import SoqlAssist.Query.Analysis

/-!
Suggestions of values. There is one template for each form of literal, with the types of field that
it suits; the client, which knows the type of the field, chooses among them.
-/
namespace SoqlAssist.Completion

/-- A numbered stop of a template with its default text. -/
def stop (n : Nat) (text : String) : String :=
  "$\x7b" ++ n.repr ++ ":" ++ text ++ "\x7d"

def choice (n : Nat) (texts : List String) : String :=
  "$\x7b" ++ n.repr ++ "|" ++ ",".intercalate texts ++ "|\x7d"

def clientValue (name : String) : String :=
  "$\x7b" ++ name ++ "\x7d"

/-- Where the cursor goes at last. -/
def lastStop : String := "$0"

def dayTemplate : String :=
  stop 1 (clientValue "CURRENT_YEAR") ++ "-" ++ stop 2 (clientValue "CURRENT_MONTH") ++ "-" ++
    stop 3 (clientValue "CURRENT_DATE")

def timeTemplate : String :=
  stop 4 (clientValue "CURRENT_HOUR") ++ ":" ++ stop 5 (clientValue "CURRENT_MINUTE") ++ ":" ++
    stop 6 (clientValue "CURRENT_SECOND")

/-- A literal of each form, with the types of field that it suits. -/
def literalForms : List (CompletionItem × List FieldType) :=
  [(.value "TRUE", [.boolean]),
    (.value "FALSE", [.boolean]),
    (.snippet "nnn" (stop 1 "123"), [.int]),
    (.snippet "nnn.nnn" (stop 1 "123.456"), [.double]),
    (.snippet "ISOCODEnnn.nn" (choice 1 ["USD", "EUR", "JPY", "CNY", "CHF"] ++ stop 2 "999.99"),
      [.currency]),
    (.snippet "abc123" ("'" ++ stop 1 "abc123" ++ "'"), [.string]),
    ((CompletionItem.snippet "YYYY-MM-DD" (dayTemplate ++ lastStop)).preselectedFirst, [.date]),
    ((CompletionItem.snippet "YYYY-MM-DDThh:mm:ssZ"
      (dayTemplate ++ "T" ++ timeTemplate ++ "Z" ++ lastStop)).preselectedFirst, [.dateTime])]

/-- A counted range of days, with a stop for the count. -/
def countedRange (range : String) : CompletionItem :=
  .snippet (DateRange.countedLabel range) (range ++ ":" ++ stop 1 "nn" ++ lastStop)

/-- The ranges of days, which suit days with and without a time. -/
def rangeForms : List (CompletionItem × List FieldType) :=
  (DateRange.fixed.map CompletionItem.value ++ DateRange.counted.map countedRange).map fun item =>
    (item, FieldType.calendar)

/-- The operator compares with values other than null only. -/
def forbidsNull (operator : Option String) : Bool :=
  match operator.bind QueryOperator.ofText? with
  | some op => op.notNullable
  | none => false

def literalItems (field : FieldReference) : List CompletionItem :=
  let hint := Hint.forField field.objectName field.fieldName
  (literalForms ++ rangeForms).map (fun (item, types) => item.withHint (hint.withTypes types)) ++
    [(CompletionItem.constant Placeholder.literalValues).withHint hint] ++
    if forbidsNull field.operator then []
    else [(CompletionItem.keyword "NULL").withHint { hint with onlyNillable := some true }]

end SoqlAssist.Completion
