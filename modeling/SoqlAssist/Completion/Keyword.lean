import SoqlAssist.Catalog.Operator
import SoqlAssist.Completion.Candidate
import SoqlAssist.Completion.Context
import SoqlAssist.Completion.Item
import SoqlAssist.Query.Lookaround

/-!
Suggestions of reserved words and operators. A word that must be followed by others is suggested
with them; an operator that compares only some types carries the field that it would compare; and
with `<`, `>` and `=` come the operators of two signs that start like them or mean the opposite.
-/
namespace SoqlAssist.Completion

/-- Operators that compare fields of some types only. -/
def typedOperators : List TokenKind :=
  [.lt, .gt, .INCLUDES, .EXCLUDES, .LIKE]

def listOperators : List String :=
  ["IN", "NOT IN", "INCLUDES", "EXCLUDES"]

/-- The label of a candidate: its words in capitals. Kinds without a spelling are left out, and a
candidate whose own kind has none has no label. -/
def candidateLabel? (c : TokenCandidate) : Option String :=
  c.kind.spelling?.map fun word =>
    " ".intercalate ((word :: c.following.filterMap (·.spelling?)).map Text.upper)

/-- The label as it is shown: an operator before a list opens the parenthesis, and `COUNT` is a call
without an argument. -/
def shownLabel (label : String) : String :=
  if listOperators.contains label then label ++ " ("
  else if label = "COUNT" then "COUNT()"
  else label

/-- The hint of an operator: the field that it would compare and the types that it compares. -/
def operatorHint? (ctx : CompletionContext) (kind : TokenKind) (label : String) : Option Hint :=
  if typedOperators.contains kind then
    ctx.whereField?.map fun field =>
      { Hint.forField field.objectName field.fieldName with
        onlyTypes := (QueryOperator.ofText? label).bind (·.types) }
  else none

/-- The suggestion for a candidate. There is none for the token that stands at the cursor already,
for `=` right after `<` or `>`, and for an aggregate in a nested query. -/
def keywordItem? (ctx : CompletionContext) (c : TokenCandidate) : Option CompletionItem :=
  if c.kind = ctx.cursorKind then none
  else if c.kind = .eq && Lookaround.isAfter ctx.tokens ctx.cursor [[.lt, .gt]] then none
  else
    match candidateLabel? c with
    | none => none
    | some label =>
      if ctx.isNested && (label == "COUNT" || label == "GROUP BY") then none
      else
        let shown := shownLabel label
        some { CompletionItem.keyword shown with
          preselect := shown == "WHERE"
          hint := operatorHint? ctx c.kind label }

def siblingLabels (label : String) : List String :=
  if label = "<" then ["<="]
  else if label = ">" then [">="]
  else if label = "=" then ["!=", "<>"]
  else []

def withSiblings (item : CompletionItem) : List CompletionItem :=
  item :: (siblingLabels item.label).map item.sibling

def tokenItems (ctx : CompletionContext) (candidates : List TokenCandidate) :
    List CompletionItem :=
  (candidates.filterMap (keywordItem? ctx)).flatMap withSiblings

end SoqlAssist.Completion
