import SoqlAssist.Query.Cursor

/-!
Texts with a marked cursor: the first `|` is taken out and its place is the cursor. Lines are
counted by `\n` alone.
-/
namespace SoqlAssist.Scenario

def marker : Char := '|'

def cursorAfter (cs : List Char) : Cursor :=
  ⟨cs.count '\n' + 1, (cs.reverse.takeWhile (· != '\n')).length + 1⟩

/-- Takes the marker out of a text; none if there is no marker. -/
def splitMarker? (text : String) : Option (String × Cursor) :=
  match text.toList.span (· != marker) with
  | (before, _ :: after) => some (String.ofList (before ++ after), cursorAfter before)
  | (_, []) => none

end SoqlAssist.Scenario
