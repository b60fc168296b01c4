import SoqlAssist.Catalog.FieldType
import SoqlAssist.Text.Blank
import SoqlAssist.Text.Fold

/-!
The operators of conditions.
-/
namespace SoqlAssist

structure QueryOperator where
  /-- The usual spelling: words in capitals, one space between two. -/
  name : String
  /-- The types of field that it compares, if not all. -/
  types : Option (List FieldType)
  /-- No comparison with this operator holds for a null value. -/
  notNullable : Bool
  deriving DecidableEq, Repr

namespace QueryOperator

def all : List QueryOperator :=
  [⟨"=", none, false⟩,
    ⟨"!=", none, false⟩,
    ⟨"<>", none, false⟩,
    ⟨"<", some FieldType.ordered, true⟩,
    ⟨"<=", some FieldType.ordered, true⟩,
    ⟨">", some FieldType.ordered, true⟩,
    ⟨">=", some FieldType.ordered, true⟩,
    ⟨"LIKE", some (FieldType.textual ++ FieldType.references), true⟩,
    ⟨"IN", none, false⟩,
    ⟨"NOT IN", none, false⟩,
    ⟨"INCLUDES", some [.multiPicklist], true⟩,
    ⟨"EXCLUDES", some [.multiPicklist], true⟩]

/-- The operator that a text spells, in any case and with any blanks between its words. -/
def ofText? (text : String) : Option QueryOperator :=
  all.find? (Text.sameFold ·.name (Text.squeeze text))

end QueryOperator

end SoqlAssist
