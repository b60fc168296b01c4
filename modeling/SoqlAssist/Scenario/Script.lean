import SoqlAssist.Completion.Candidate
import SoqlAssist.Data.Form

/-!
Scripted predictors, which give the same candidates for every request. A candidate rule may be
placed relative to the cursor, so one script serves any text.
-/
namespace SoqlAssist.Scenario

/-- Where a scripted rule starts. -/
inductive RuleStart where
  | cursor
  /-- This many tokens before the cursor, but not before the first. -/
  | beforeCursor (n : Nat)
  | position (i : Nat)
  deriving DecidableEq, Repr

namespace RuleStart

def resolve (cursor : Nat) : RuleStart → Nat
  | .cursor => cursor
  | .beforeCursor n => cursor - n
  | .position i => i

/-- A given position comes before a given distance. -/
def ofOptions (position distance : Option Nat) : RuleStart :=
  match position, distance with
  | some i, _ => .position i
  | none, some n => .beforeCursor n
  | none, none => .cursor

end RuleStart

structure ScriptedRule where
  rule : Rule
  path : List Rule
  start : RuleStart
  deriving DecidableEq, Repr

def scriptedRule? (form : Form) (d : Data) : Option ScriptedRule := do
  let fields ← form.fields? ["rule", "path", "start", "before_cursor"] 4 d
  let rule? := form.name? Rule.ofName?
  let position ← Data.optional Data.nat? (fields.lookup "start")
  let distance ← Data.optional Data.nat? (fields.lookup "before_cursor")
  pure {
    rule := ← Data.required rule? (fields.lookup "rule")
    path := ← Data.orDefault [] (Data.list? rule?) (fields.lookup "path")
    start := .ofOptions position distance }

def tokenCandidate? (form : Form) (d : Data) : Option TokenCandidate := do
  let fields ← form.fields? ["token", "following"] 1 d
  let kind? := form.name? TokenKind.ofName?
  pure {
    kind := ← Data.required kind? (fields.lookup "token")
    following := ← Data.orDefault [] (Data.list? kind?) (fields.lookup "following") }

structure Script where
  tokens : List TokenCandidate
  rules : List ScriptedRule
  deriving DecidableEq, Repr

namespace Script

def candidates (s : Script) (cursor : Nat) : Candidates :=
  ⟨s.tokens, s.rules.map fun r => ⟨r.rule, r.path, r.start.resolve cursor⟩⟩

def predictor (s : Script) : Predictor :=
  fun request => s.candidates request.cursor

end Script

end SoqlAssist.Scenario
