import SoqlAssist.Catalog.FieldType
import SoqlAssist.Text.Fold

/-!
The functions of the query language, aggregates first.
-/
namespace SoqlAssist

/-- A function that a column can call. -/
structure QueryFunction where
  name : String
  /-- The types of field that it takes, if not all. -/
  types : Option (List FieldType)
  isAggregate : Bool
  description : Option String
  deriving DecidableEq, Repr

namespace QueryFunction

/-- A field of this type can be the function's argument. -/
def accepts (f : QueryFunction) (type : FieldType) : Bool :=
  match f.types with
  | none => true
  | some types => types.contains type

def aggregate (name : String) (types : Option (List FieldType)) (description : String) :
    QueryFunction :=
  ⟨name, types, true, some description⟩

def calendar (name : String) (types : List FieldType) : QueryFunction :=
  ⟨name, some types, false, none⟩

def conversion (name : String) (types : Option (List FieldType)) (description : String) :
    QueryFunction :=
  ⟨name, types, false, some description⟩

def all : List QueryFunction :=
  [aggregate "AVG" (some FieldType.numeric) "Average value of a numeric field",
    aggregate "COUNT" none "Number of rows matching the query",
    aggregate "COUNT_DISTINCT" none "Number of distinct non-null field values",
    aggregate "MIN" (some FieldType.ordered) "Minimum value of a field",
    aggregate "MAX" (some FieldType.ordered) "Maximum value of a field",
    aggregate "SUM" (some FieldType.numeric) "Total sum of a numeric field",
    calendar "CALENDAR_MONTH" FieldType.calendar,
    calendar "CALENDAR_QUARTER" FieldType.calendar,
    calendar "CALENDAR_YEAR" FieldType.calendar,
    calendar "DAY_IN_MONTH" FieldType.calendar,
    calendar "DAY_IN_WEEK" FieldType.calendar,
    calendar "DAY_IN_YEAR" FieldType.calendar,
    calendar "DAY_ONLY" [.dateTime],
    calendar "FISCAL_MONTH" FieldType.calendar,
    calendar "FISCAL_QUARTER" FieldType.calendar,
    calendar "FISCAL_YEAR" FieldType.calendar,
    calendar "HOUR_IN_DAY" [.dateTime],
    calendar "WEEK_IN_MONTH" FieldType.calendar,
    calendar "WEEK_IN_YEAR" FieldType.calendar,
    conversion "FORMAT" (some (FieldType.numeric ++ FieldType.calendar ++ [.time]))
      "Localized formatting of number and date fields",
    conversion "convertCurrency" (some [.currency]) "Currency amount in the user's currency",
    conversion "toLabel" (some [.picklist, .multiPicklist]) "Translated picklist label",
    conversion "GROUPING" none "Whether a row is a ROLLUP or CUBE subtotal"]

def ofName? (name : String) : Option QueryFunction :=
  all.find? (Text.sameFold ·.name name)

end QueryFunction

end SoqlAssist
