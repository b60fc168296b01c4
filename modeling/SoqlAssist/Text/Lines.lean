/-!
Lines of a text. A line ends at `\r\n`, `\n` or a lone `\r`, and a pair `\r\n` is one break. The
same rule counts lines, moves a place through a text and cuts out the text of one line.
-/
namespace SoqlAssist.Text

def isBreak (c : Char) : Bool :=
  c == '\n' || c == '\r'

/-- The number of line breaks, a pair `\r\n` being one. -/
def countBreaks : List Char → Nat
  | [] => 0
  | '\r' :: '\n' :: cs => countBreaks cs + 1
  | c :: cs => if isBreak c then countBreaks cs + 1 else countBreaks cs

/-- The part of a text after its last line break, the whole text if it has none. -/
def lastLine (cs : List Char) : List Char :=
  (cs.reverse.takeWhile (!isBreak ·)).reverse

/-- What follows the first line break, if there is one. -/
def afterBreak? : List Char → Option (List Char)
  | [] => none
  | '\r' :: '\n' :: cs => some cs
  | c :: cs => if isBreak c then some cs else afterBreak? cs

/-- The text of a line, counted from zero, without its break. -/
def line? (cs : List Char) : Nat → Option (List Char)
  | 0 => some (cs.takeWhile (!isBreak ·))
  | n + 1 => (afterBreak? cs).bind (line? · n)

/-- The pieces of a text between its `\n` characters, each with the `\n` that ends it. -/
def feedLines : List Char → List (List Char)
  | [] => []
  | c :: cs =>
    if c == '\n' then [c] :: feedLines cs
    else match feedLines cs with
      | [] => [[c]]
      | line :: rest => (c :: line) :: rest

def units16 (c : Char) : Nat :=
  if c.toNat < 0x10000 then 1 else 2

/-- A place in a text: the line from one, the column in characters from zero. -/
structure Place where
  line : Nat
  column : Nat
  deriving DecidableEq, Repr

namespace Place

def origin : Place := ⟨1, 0⟩

def advance (p : Place) : List Char → Place
  | [] => p
  | '\r' :: '\n' :: cs => advance ⟨p.line + 1, 0⟩ cs
  | c :: cs => advance (if isBreak c then ⟨p.line + 1, 0⟩ else ⟨p.line, p.column + 1⟩) cs

end Place

end SoqlAssist.Text
