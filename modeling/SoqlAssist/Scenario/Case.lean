import SoqlAssist.Completion.Engine
import SoqlAssist.Data.Flow
import SoqlAssist.Scenario.Marker
import SoqlAssist.Scenario.Script

/-!
Cases: a text with a marked cursor, a script for the predictor, and what the labels of the
suggestions must and must not be. Cases are kept in files.
-/
namespace SoqlAssist.Scenario

structure Expectation where
  contains : List String
  excludes : List String
  minItems : Option Nat
  deriving DecidableEq, Repr

structure Case where
  description : String
  /-- The text with a marker. -/
  input : String
  script : Script
  expected : Expectation
  deriving DecidableEq, Repr

inductive CaseError where
  | malformed
  | empty
  /-- The case with this description has no marker. -/
  | noMarker (description : String)
  deriving DecidableEq, Repr

def CaseError.message : CaseError → String
  | .malformed => "Malformed test case file"
  | .empty => "Empty test case file"
  | .noMarker description => s!"Test case '{description}' has no cursor marker"

inductive Mismatch where
  | tooFew (expected actual : Nat)
  | missing (label : String)
  | unexpected (label : String)
  deriving DecidableEq, Repr

def Mismatch.message : Mismatch → String
  | .tooFew expected actual =>
    s!"Too few completion items: expected at least {expected}, got {actual}"
  | .missing label => s!"Missing required item: {label}"
  | .unexpected label => s!"Unexpected item: {label}"

namespace Expectation

def none : Expectation := ⟨[], [], .none⟩

/-- Compares the labels of suggestions: first their number, then those that must be there, then
those that must not. -/
def check (e : Expectation) (labels : List String) : Except Mismatch Unit :=
  match e.minItems.filter (labels.length < ·) with
  | some least => .error (.tooFew least labels.length)
  | .none =>
    match e.contains.find? (!labels.contains ·) with
    | some label => .error (.missing label)
    | .none =>
      match e.excludes.find? labels.contains with
      | some label => .error (.unexpected label)
      | .none => .ok ()

def ofData? (d : Data) : Option Expectation := do
  let fields ← Form.file.fields? ["contains", "excludes", "min_items"] 3 d
  let labels? := Data.list? Form.file.text?
  pure {
    contains := ← Data.orDefault [] labels? (fields.lookup "contains")
    excludes := ← Data.orDefault [] labels? (fields.lookup "excludes")
    minItems := ← Data.optional Data.nat? (fields.lookup "min_items") }

end Expectation

namespace Case

def ofData? (d : Data) : Option Case := do
  let fields ← Form.file.fields? ["description", "input", "tokens", "rules", "expected"] 2 d
  let tokens? := Data.list? (tokenCandidate? .file)
  let rules? := Data.list? (scriptedRule? .file)
  pure {
    description := ← Data.required Form.file.text? (fields.lookup "description")
    input := ← Data.required Form.file.text? (fields.lookup "input")
    script := {
      tokens := ← Data.orDefault [] tokens? (fields.lookup "tokens")
      rules := ← Data.orDefault [] rules? (fields.lookup "rules") }
    expected := ← Data.orDefault .none Expectation.ofData? (fields.lookup "expected") }

/-- A case ready to run: its text without the marker, and the cursor. -/
structure Ready where
  case : Case
  text : String
  cursor : Cursor
  deriving DecidableEq, Repr

/-- Takes the marker out of the case's text. -/
def ready (c : Case) : Except CaseError Ready :=
  match splitMarker? c.input with
  | some (text, cursor) => .ok ⟨c, text, cursor⟩
  | none => .error (.noMarker c.description)

/-- Reads a file with a list of cases, at least one, each with a marker. -/
def readAll (d : Data) : Except CaseError (List Ready) :=
  match (Flow.read? d).bind (Data.list? ofData?) with
  | none => .error .malformed
  | some [] => .error .empty
  | some cases => cases.mapM ready

structure Outcome where
  labels : List String
  verdict : Except Mismatch Unit

/-- Completes the case's text at its cursor with default settings and checks the labels. -/
def Ready.run (r : Ready) : Except CompletionError Outcome :=
  let engine : CompletionEngine := ⟨r.case.script.predictor, .default⟩
  (engine.complete r.text r.cursor).map fun items =>
    let labels := items.map (RenderedItem.ofItem · |>.label)
    ⟨labels, r.case.expected.check labels⟩

end Case

end SoqlAssist.Scenario
