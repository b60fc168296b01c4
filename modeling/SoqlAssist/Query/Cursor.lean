import SoqlAssist.Token.Basic

/-!
Cursors. A cursor between two characters stands for a token: the word that it touches from behind,
or else the token that follows, blanks skipped. Editors count columns in UTF-16 units; tokens count
characters, so a column is measured again on its line.
-/
namespace SoqlAssist

/-- A cursor: line and column from one. -/
structure Cursor where
  line : Nat
  column : Nat
  deriving DecidableEq, Repr

inductive CursorError where
  | notFound (cursor : Cursor)
  | emptyStream
  deriving DecidableEq, Repr

def CursorError.message : CursorError → String
  | .notFound c => s!"Cursor position {c.line}:{c.column} not found in token stream"
  | .emptyStream => "Token stream is empty"

namespace Cursor

/-- How many characters it takes to reach a number of UTF-16 units. A character of two units is
counted as soon as its first unit is wanted. -/
def charsFor : (units : Nat) → List Char → Nat
  | 0, _ => 0
  | _, [] => 0
  | units, c :: cs => charsFor (units - Text.units16 c) cs + 1

/-- The cursor at an editor's position: line and UTF-16 column from zero. On a line that the text
does not have, units are taken for characters. -/
def ofEditor (text : String) (line character : Nat) : Cursor :=
  match Text.line? text.toList line with
  | some content => ⟨line + 1, charsFor character content + 1⟩
  | none => ⟨line + 1, character + 1⟩

/-- The token reaches past the cursor. The end mark has no text and reaches to the end of its
line. -/
def coveredBy (c : Cursor) (t : Token) : Bool :=
  if t.kind = .eof then t.line == c.line && t.column ≤ c.column - 1
  else c.line < t.endLine || (t.endLine == c.line && c.column - 1 < t.endColumn)

def startsAt (c : Cursor) (t : Token) : Bool :=
  t.line == c.line && t.column == c.column - 1

/-- The position that the cursor stands for, once the token at `i` reaches past it. -/
def target (c : Cursor) (i : Nat) (previous : Option Token) (t : Token) : Nat :=
  if c.startsAt t && previous.any (·.endsWithWordChar) then i - 1
  else if t.kind = .whitespace then i + 1
  else i

/-- The search among the tokens from `i` on. -/
def resolveFrom (c : Cursor) (i : Nat) (previous : Option Token) :
    List Token → Except CursorError Nat
  | [] => .error (.notFound c)
  | t :: ts =>
    if c.coveredBy t then .ok (c.target i previous t)
    else c.resolveFrom (i + 1) (some t) ts

/-- The position of the token that the cursor stands for. -/
def resolve (c : Cursor) (tokens : TokenStream) : Except CursorError Nat :=
  if tokens.isEmpty then .error .emptyStream else c.resolveFrom 0 none tokens.toList

end Cursor

end SoqlAssist
