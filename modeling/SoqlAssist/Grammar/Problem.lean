import SoqlAssist.Token.Kind

/-!
What can be wrong with a query, and the words for it.
-/
namespace SoqlAssist

/-- What the grammar asked for and did not find. -/
inductive Problem where
  /-- A reserved word or a sign. -/
  | missing (k : TokenKind)
  | field
  /-- The name after a dot. -/
  | fieldName
  | identifier
  | objectName
  | operator
  | value
  | number
  /-- The right side of `LIKE`. -/
  | pattern
  | distanceUnit
  | rowCount
  /-- The word after `NULLS`. -/
  | nullsOrder
  /-- The words after `FOR`. -/
  | purpose
  /-- Nothing was asked for: the query is over and the text goes on. -/
  | trailing
  deriving DecidableEq, Repr

namespace Problem

/-- A reserved word in capitals, a sign in quotes. -/
def tokenText (k : TokenKind) : String :=
  match k.spelling? with
  | some s => if k ∈ TokenKind.keywords then Text.upper s else s!"'{s}'"
  | none => k.name

def text : Problem → String
  | .missing k => s!"expected {tokenText k}"
  | .field => "expected field"
  | .fieldName => "expected field name"
  | .identifier => "expected identifier"
  | .objectName => "expected object name"
  | .operator => "expected operator"
  | .value => "expected value"
  | .number => "expected number"
  | .pattern => "expected pattern string"
  | .distanceUnit => "expected distance unit"
  | .rowCount => "expected row count"
  | .nullsOrder => "expected FIRST or LAST"
  | .purpose => "expected VIEW, REFERENCE or UPDATE"
  | .trailing => "unexpected input after query"

end Problem

end SoqlAssist
