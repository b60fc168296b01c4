import SoqlAssist.Data
import SoqlAssist.Text.Lines
import SoqlAssist.Token.Kind

/-!
Tokens and where they stand. A token keeps its text as written; its end is computed from its start
and its text. A stream of tokens may come from a text or be given directly, so nothing here assumes
that positions and channels fit the text.
-/
namespace SoqlAssist

inductive Channel where
  | visible
  | hidden
  deriving DecidableEq, Repr

namespace Channel

def ofKind (k : TokenKind) : Channel :=
  if k.isHidden then .hidden else .visible

def name : Channel → String
  | .visible => "Default"
  | .hidden => "Hidden"

def ofName? (s : String) : Option Channel :=
  [visible, hidden].find? (·.name == s)

end Channel

structure Token where
  kind : TokenKind
  /-- The text as written. -/
  text : String
  /-- The position in the stream. -/
  index : Nat
  /-- The first line, from one. -/
  line : Nat
  /-- The first column, in characters from zero. -/
  column : Nat
  channel : Channel
  deriving DecidableEq, Repr

abbrev TokenStream := Array Token

def isWordChar (c : Char) : Bool :=
  c.isAlphanum || c == '_'

namespace Token

def isHidden (t : Token) : Bool :=
  t.channel == .hidden

/-- The line on which the token ends. Only blanks and comments are taken to span lines. -/
def endLine (t : Token) : Nat :=
  if t.kind.isHidden then t.line + Text.countBreaks t.text.toList else t.line

/-- The column after the last character, on the token's last line. -/
def endColumn (t : Token) : Nat :=
  let cs := t.text.toList
  if cs.any Text.isBreak then (Text.lastLine cs).length else t.column + cs.length

def endsWithWordChar (t : Token) : Bool :=
  t.text.toList.getLast?.any isWordChar

def keys : List String :=
  ["kind", "text", "index", "line", "column", "channel"]

def toData (t : Token) : Data :=
  .record
    [("kind", .text t.kind.name), ("text", .text t.text), ("index", .nat t.index),
      ("line", .nat t.line), ("column", .nat t.column), ("channel", .text t.channel.name)]

def ofData? (d : Data) : Option Token := do
  let fields ← d.fields? keys 6
  let value (key : String) := fields.lookup key
  pure {
    kind := ← Data.required (Data.name? TokenKind.ofName?) (value "kind")
    text := ← Data.required Data.text? (value "text")
    index := ← Data.required Data.nat? (value "index")
    line := ← Data.required Data.nat? (value "line")
    column := ← Data.required Data.nat? (value "column")
    channel := ← Data.required (Data.name? Channel.ofName?) (value "channel") }

end Token

namespace TokenStream

/-- The kind of the token at a position, `eof` past the end. -/
def kindAt (tokens : TokenStream) (i : Nat) : TokenKind :=
  match tokens[i]? with
  | some t => t.kind
  | none => .eof

end TokenStream

end SoqlAssist
