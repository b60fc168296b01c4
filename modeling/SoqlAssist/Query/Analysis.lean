import SoqlAssist.Data
import SoqlAssist.Query.Parsed
import SoqlAssist.Query.Scope

/-!
What a parsed query says about a position in it: the scopes around the position and the condition
that is being written there. The condition is the nearest one that starts at or before the position,
and its field is taken to belong to the object of the innermost scope.
-/
namespace SoqlAssist

structure FieldReference where
  objectName : String
  /-- The path of the field from the object. -/
  fieldName : String
  /-- The operator as written, if the condition has one. -/
  operator : Option String
  deriving DecidableEq, Repr

def FieldReference.ofData? (d : Data) : Option FieldReference := do
  let fields ← d.fields? ["sobject_name", "field_name", "operator"] 3
  pure {
    objectName := ← Data.required Data.text? (fields.lookup "sobject_name")
    fieldName := ← Data.required Data.text? (fields.lookup "field_name")
    operator := ← Data.optional Data.text? (fields.lookup "operator") }

structure Analysis where
  parsed : ParsedQuery
  scopes : QueryScopes
  deriving DecidableEq, Repr

namespace Analysis

def ofParsed (parsed : ParsedQuery) : Analysis :=
  ⟨parsed, .ofTree parsed.tree parsed.tokens⟩

def scopesAt (a : Analysis) (i : Nat) : List QueryScope :=
  a.scopes.scopesAt i

/-- Of two conditions with their distances, the new one only if it is nearer. -/
def nearer (best : Option (Nat × Nat)) (id distance : Nat) : Option (Nat × Nat) :=
  match best with
  | none => some (id, distance)
  | some (_, d) => if distance < d then some (id, distance) else best

/-- The condition that starts at or before a position and nearest to it; the first of several. -/
def nearestCondition? (t : Tree) (i : Nat) : Option Nat :=
  let best := t.ruleNodes.foldl (fun best (id, rule) =>
    match rule, t.start? id with
    | .whereExpr, some start => if start ≤ i then nearer best id (i - start) else best
    | _, _ => best) none
  best.map (·.1)

/-- A field path without the leading name of the object, if it has it. -/
def withoutQualifier (objectName path : String) : String :=
  match path.toList.span (· != '.') with
  | (qualifier, _ :: rest) =>
    if String.ofList qualifier = objectName then String.ofList rest else path
  | (_, []) => path

/-- The texts of tokens run together, with a space between two words. -/
def joinWords (afterWord : Bool) : List Token → String
  | [] => ""
  | t :: ts =>
    let word := t.endsWithWordChar
    (if word && afterWord then " " else "") ++ t.text ++ joinWords word ts

def operatorText (t : Tree) (tokens : TokenStream) (id : Nat) : String :=
  joinWords false ((t.children id).filterMap fun c => (t.token? c).bind (tokens[·]?))

/-- The field and operator of the condition at a position. There is none outside a query with a
known object. -/
def whereField? (a : Analysis) (i : Nat) : Option FieldReference := do
  let tree := a.parsed.tree
  let objectName ← (← a.scopes.innermostAt? i).objectName
  let condition ← nearestCondition? tree i
  let field ← tree.child? condition 0
  let path := tree.text field a.parsed.tokens
  let operator :=
    if (tree.children condition).length > 2 then
      (tree.child? condition 1).map (operatorText tree a.parsed.tokens)
    else none
  pure ⟨objectName, withoutQualifier objectName path, operator⟩

end Analysis

end SoqlAssist
