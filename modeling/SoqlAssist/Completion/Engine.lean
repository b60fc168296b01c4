import SoqlAssist.Completion.Keyword
import SoqlAssist.Completion.Rendered
import SoqlAssist.Completion.Site
import SoqlAssist.Document
import SoqlAssist.Query.Cursor

/-!
Completion of a document at a cursor. The header is emptied, the rest parsed, the cursor resolved to
a token, the predictor asked, and its candidates turned into suggestions.
-/
namespace SoqlAssist

/-- Why there is no completion. -/
inductive CompletionError where
  /-- Lines and columns of a cursor start at one. -/
  | invalidPosition (cursor : Cursor)
  | context (error : CursorError)
  deriving DecidableEq, Repr

namespace CompletionError

def message : CompletionError → String
  | .invalidPosition c =>
    s!"Invalid position: CursorPosition \x7b line: {c.line}, column: {c.column} \x7d"
  | .context e => s!"Context detection error: {e.message}"

/-- The error means only that there is nothing to suggest. -/
def meansNothing : CompletionError → Bool
  | .invalidPosition _ => true
  | .context (.notFound _) => true
  | .context .emptyStream => true

end CompletionError

namespace Completion

/-- Adds what candidates leave out: the objects after `SELECT FROM`, and with `SELECT` the template
of a whole query, unless `FROM` follows already. -/
def complement (ctx : CompletionContext) (items : List CompletionItem) : List CompletionItem :=
  let items :=
    if items.isEmpty && Lookaround.isAfter ctx.tokens ctx.cursor [[.SELECT], [.FROM]] then
      fromItems ctx
    else items
  if items.any (·.label == "SELECT") && !Lookaround.isBefore ctx.tokens ctx.cursor [[.FROM]] then
    items ++ [.snippet "SELECT ... FROM ..." "SELECT $2 FROM $1"]
  else items

def itemsFor (ctx : CompletionContext) (candidates : Candidates) : List CompletionItem :=
  complement ctx (tokenItems ctx candidates.tokens ++ ruleItems ctx candidates.rules)

end Completion

/-- Completes documents by a predictor and settings. -/
structure CompletionEngine where
  predict : Predictor
  settings : Settings

namespace CompletionEngine

def complete (engine : CompletionEngine) (text : String) (cursor : Cursor) :
    Except CompletionError (List CompletionItem) :=
  if cursor.line = 0 ∨ cursor.column = 0 then .error (.invalidPosition cursor)
  else
    let parsed := parse (Document.ofText text).padded
    match cursor.resolve parsed.tokens with
    | .error e => .error (.context e)
    | .ok position =>
      let ctx := CompletionContext.ofPosition (.ofParsed parsed) position
        engine.settings.defaultObject
      .ok (Completion.itemsFor ctx
        (Candidates.collect engine.predict parsed position engine.settings))

/-- The suggestions, none where there is an error. -/
def completeOrNothing (engine : CompletionEngine) (text : String) (cursor : Cursor) :
    List CompletionItem :=
  match engine.complete text cursor with
  | .ok items => items
  | .error _ => []

/-- The suggestions for an editor's position, rendered for the editor. -/
def completeRendered (engine : CompletionEngine) (text : String) (line character : Nat) :
    Except CompletionError (List RenderedItem) :=
  (engine.complete text (.ofEditor text line character)).map (·.map .ofItem)

end CompletionEngine

end SoqlAssist
