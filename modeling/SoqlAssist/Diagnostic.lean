import SoqlAssist.Data
import SoqlAssist.Document
import SoqlAssist.Query.Parsed

/-!
Diagnostics: syntax errors as editors take them. Positions count from zero and are words of 32 bits,
and the range of an error covers the characters of its token.
-/
namespace SoqlAssist

structure EditorPosition where
  line : UInt32
  character : UInt32
  deriving DecidableEq, Repr

structure EditorRange where
  start : EditorPosition
  stop : EditorPosition
  deriving DecidableEq, Repr

def EditorPosition.toData (p : EditorPosition) : Data :=
  .record [("line", .nat p.line.toNat), ("character", .nat p.character.toNat)]

def EditorPosition.ofData? (d : Data) : Option EditorPosition := do
  let fields ← d.fields? ["line", "character"] 2
  pure {
    line := ← Data.required Data.nat32? (fields.lookup "line")
    character := ← Data.required Data.nat32? (fields.lookup "character") }

def EditorRange.toData (r : EditorRange) : Data :=
  .record [("start", r.start.toData), ("end", r.stop.toData)]

def EditorRange.ofData? (d : Data) : Option EditorRange := do
  let fields ← d.fields? ["start", "end"] 2
  pure {
    start := ← Data.required EditorPosition.ofData? (fields.lookup "start")
    stop := ← Data.required EditorPosition.ofData? (fields.lookup "end") }

inductive DiagnosticCode where
  | syntaxError
  | custom (code : String)
  deriving DecidableEq, Repr

def DiagnosticCode.text : DiagnosticCode → String
  | .syntaxError => "SOQL-SYNTAX"
  | .custom code => code

/-- A message about a range of a document. -/
structure Diagnostic where
  message : String
  severity : Int
  range : EditorRange
  code : Option DiagnosticCode
  deriving DecidableEq, Repr

namespace Diagnostic

def errorSeverity : Int := 1

def source : String := "soql"

def ofSyntaxError (e : SyntaxError) : Diagnostic :=
  let line := (e.line - 1).toUInt32
  let start := e.column.toUInt32
  { message := e.message
    severity := errorSeverity
    range := ⟨⟨line, start⟩, ⟨line, start + e.length.toUInt32⟩⟩
    code := some .syntaxError }

def toData (d : Diagnostic) : Data :=
  .present
    [("range", some d.range.toData),
      ("severity", some (.number d.severity 0)),
      ("code", d.code.map fun code => .text code.text),
      ("source", some (.text source)),
      ("message", some (.text d.message))]

/-- The syntax errors of a document, its header emptied. -/
def ofText (text : String) : List Diagnostic :=
  (parse (Document.ofText text).padded).errors.map ofSyntaxError

end Diagnostic

end SoqlAssist
