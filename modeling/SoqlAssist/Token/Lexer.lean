import SoqlAssist.Text.Blank
import SoqlAssist.Token.Basic

/-!
From text to tokens. Each token is decided by its first character and what follows: `extent` gives
the kind and the number of further characters, and the rest of the text is lexed in the same way.
Every text has a token stream: a character that starts no token is a token of kind `unknown`, a
string or comment that is not closed is one token all the same, and `eof` ends the stream.
-/
namespace SoqlAssist.Lexer

def isNameStart (c : Char) : Bool :=
  c.isAlpha || c == '_'

def runLength (p : Char → Bool) (cs : List Char) : Nat :=
  (cs.takeWhile p).length

/-- The characters of a block comment after `/*`, the closing `*/` included if there is one. -/
def blockLength : List Char → Nat
  | [] => 0
  | '*' :: '/' :: _ => 2
  | _ :: cs => blockLength cs + 1

/-- The characters of a string after its opening quote, the closing quote included if there is
one. A backslash takes the next character with it; without a closing quote the string stops before
the next line break. -/
def stringLength : List Char → Nat
  | [] => 0
  | ['\x5c'] => 1
  | '\x5c' :: _ :: cs => stringLength cs + 2
  | c :: cs =>
    if c == '\x27' then 1
    else if Text.isBreak c then 0
    else stringLength cs + 1

/-- Whether a text starts with a pattern in which `d` stands for any digit. -/
def startsWith : (pattern : List Char) → (cs : List Char) → Bool
  | [], _ => true
  | _ :: _, [] => false
  | p :: ps, c :: cs => (if p == 'd' then c.isDigit else c == p) && startsWith ps cs

/-- A point with a digit after it, and the digits that follow. -/
def fractionLength : List Char → Nat
  | '.' :: c :: cs => if c.isDigit then runLength Char.isDigit cs + 2 else 0
  | _ => 0

/-- A time zone: `Z`, or a sign with hours and minutes. -/
def zoneLength : List Char → Nat
  | 'Z' :: _ => 1
  | c :: cs => if (c == '+' || c == '-') && startsWith "dd:dd".toList cs then 6 else 0
  | [] => 0

/-- A time of day after a date, with an optional fraction and zone; zero if there is none. -/
def timeLength (cs : List Char) : Nat :=
  if startsWith "Tdd:dd:dd".toList cs then
    let fraction := fractionLength (cs.drop 9)
    9 + fraction + zoneLength (cs.drop (9 + fraction))
  else 0

/-- The kind of a token that starts with the digit `c`, and its further characters. -/
def numberExtent (c : Char) (cs : List Char) : TokenKind × Nat :=
  if startsWith "dddd-dd-dd".toList (c :: cs) then
    let time := timeLength (cs.drop 9)
    (if time = 0 then .date else .dateTime, 9 + time)
  else
    let whole := runLength Char.isDigit cs
    let fraction := fractionLength (cs.drop whole)
    (if fraction = 0 then .integer else .decimal, whole + fraction)

def wordKind (word : List Char) : TokenKind :=
  (TokenKind.ofWord? (String.ofList word)).getD .identifier

def signKind : Char → TokenKind
  | '=' => .eq
  | '<' => .lt
  | '>' => .gt
  | '(' => .lParen
  | ')' => .rParen
  | ',' => .comma
  | '.' => .dot
  | '+' => .plus
  | '-' => .minus
  | _ => .unknown

/-- The kind of the token that starts with `c` when `cs` follows, and how many characters of `cs`
belong to it. -/
def extent (c : Char) (cs : List Char) : TokenKind × Nat :=
  if Text.isBlank c then (.whitespace, runLength Text.isBlank cs)
  else if c == '-' && cs.head? == some '-' then (.comment, runLength (!Text.isBreak ·) cs)
  else if c == '/' && cs.head? == some '*' then (.comment, blockLength (cs.drop 1) + 1)
  else if c == '\x27' then (.string, stringLength cs)
  else if c.isDigit then numberExtent c cs
  else if isNameStart c then
    let n := runLength isWordChar cs
    (wordKind (c :: cs.take n), n)
  else if c == ':' then
    if cs.head?.any isNameStart then (.bind, runLength isWordChar cs) else (.colon, 0)
  else if c == '!' && cs.head? == some '=' then (.notEq, 1)
  else (signKind c, 0)

/-- The tokens of a text whose first character stands at `place` and starts token `index`. -/
def lexFrom (place : Text.Place) (index : Nat) : List Char → List Token
  | [] => [⟨.eof, "", index, place.line, place.column, .visible⟩]
  | c :: cs =>
    let (kind, n) := extent c cs
    let text := c :: cs.take n
    ⟨kind, String.ofList text, index, place.line, place.column, Channel.ofKind kind⟩ ::
      lexFrom (place.advance text) (index + 1) (cs.drop n)
termination_by cs => cs.length
decreasing_by
  simp only [List.length_cons, List.length_drop]
  omega

end SoqlAssist.Lexer

namespace SoqlAssist

/-- The tokens of a text, `eof` last. -/
def tokenize (text : String) : TokenStream :=
  (Lexer.lexFrom .origin 0 text.toList).toArray

end SoqlAssist
