import SoqlAssist.Data.Scalar

/-!
The two forms in which the same data is exchanged. A program writes messages: each value has its
own type, and records and names have a second way to be written. People write files: any single
value can stand for its text, and there is one way to write a record or a name.
-/
namespace SoqlAssist

/-- How data is written down. -/
inductive Form where
  | message
  | file
  deriving DecidableEq, Repr

namespace Form

def text? : Form → Data → Option String
  | .message => Data.text?
  | .file => Data.scalarText?

def name? (ofName? : String → Option α) : Form → Data → Option α
  | .message, d => d.name? ofName?
  | .file, d => d.scalarText?.bind ofName?

def fields? (keys : List String) (least : Nat) : Form → Data → Option (List (String × Data))
  | .message, d => d.fields? keys least
  | .file, .record fields => some fields
  | .file, _ => none

end Form

end SoqlAssist
