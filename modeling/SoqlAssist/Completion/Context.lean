import SoqlAssist.Query.Analysis

/-!
The surroundings of a cursor: the query with its scopes, the position of the cursor's token and the
object that suggestions are made for.
-/
namespace SoqlAssist

/-- What suggestions at a cursor depend on. -/
structure CompletionContext where
  analysis : Analysis
  /-- The position of the token that the cursor stands for. -/
  cursor : Nat
  /-- The scopes around it, innermost first. -/
  scopes : List QueryScope
  /-- The object of the innermost scope, or the default. -/
  objectName : String
  deriving DecidableEq, Repr

namespace CompletionContext

def ofPosition (analysis : Analysis) (cursor : Nat) (defaultObject : String) : CompletionContext :=
  let scopes := analysis.scopesAt cursor
  ⟨analysis, cursor, scopes, (scopes.head?.bind (·.objectName)).getD defaultObject⟩

def tokens (ctx : CompletionContext) : TokenStream :=
  ctx.analysis.parsed.tokens

def cursorKind (ctx : CompletionContext) : TokenKind :=
  ctx.tokens.kindAt ctx.cursor

def innermost? (ctx : CompletionContext) : Option QueryScope :=
  ctx.scopes.head?

/-- The cursor is in a query inside a query. -/
def isNested (ctx : CompletionContext) : Bool :=
  1 < ctx.scopes.length

def parentObject? (ctx : CompletionContext) : Option String :=
  if ctx.isNested then ctx.scopes[1]?.bind (·.objectName) else none

/-- What a nested query calls its object: a relationship of the parent's object. -/
def relationshipName? (ctx : CompletionContext) : Option String :=
  if ctx.isNested then ctx.innermost?.bind (·.objectName) else none

def whereField? (ctx : CompletionContext) : Option FieldReference :=
  ctx.analysis.whereField? ctx.cursor

end CompletionContext

end SoqlAssist
