import SoqlAssist.Data
import SoqlAssist.Grammar.Rule
import SoqlAssist.Text.Blank
import SoqlAssist.Token.Kind

/-!
Settings of completion, as a client sends them. They stand in the section `soql`; what the section
leaves out has a default. Sets are kept as their characteristic functions, so two settings that
admit the same candidates are equal.
-/
namespace SoqlAssist

/-- Which candidates are admitted, and the object to assume. -/
structure Settings where
  /-- Kinds of token that are never suggested. -/
  ignoredTokens : TokenKind → Bool
  /-- Rules for which suggestions are made. -/
  preferredRules : Rule → Bool
  /-- The object of a query that names none. -/
  defaultObject : String

inductive SettingsError where
  /-- The section does not have the form of settings. -/
  | malformed
  /-- The default object has no name. -/
  | blankObject
  deriving DecidableEq, Repr

def SettingsError.message : SettingsError → String
  | .malformed => "Invalid completion settings"
  | .blankObject => "Invalid configuration: defaultSobject cannot be empty"

namespace Settings

/-- The settings of a client that sends none. -/
def default : Settings where
  ignoredTokens k := [.bind, .lParen, .DISTANCE, .comma, .plus, .minus, .colon].contains k
  preferredRules r :=
    [.fromExprs, .fromExpr, .field, .updateStatsClause, .identifier, .literalValue,
      .likeLiteral].contains r
  defaultObject := "Object"

def ignoredList (s : Settings) : List TokenKind :=
  TokenKind.all.filter s.ignoredTokens

def preferredList (s : Settings) : List Rule :=
  Rule.all.filter s.preferredRules

def keys : List String :=
  ["ignoredTokens", "preferredRules", "defaultSobject"]

def toData (s : Settings) : Data :=
  .record
    [("ignoredTokens", .texts (s.ignoredList.map (·.name))),
      ("preferredRules", .texts (s.preferredList.map (·.name))),
      ("defaultSobject", .text s.defaultObject)]

/-- Reads a set of names, in any order and with repetitions. -/
def set? [DecidableEq α] (ofName? : String → Option α) (d : Data) : Option (α → Bool) :=
  (d.list? (Data.name? ofName?)).map fun xs x => xs.contains x

def ofData? (d : Data) : Option Settings := do
  let fields ← d.fields? keys 0
  pure {
    ignoredTokens := ←
      Data.orDefault default.ignoredTokens (set? TokenKind.ofName?) (fields.lookup "ignoredTokens")
    preferredRules := ←
      Data.orDefault default.preferredRules (set? Rule.ofName?) (fields.lookup "preferredRules")
    defaultObject := ←
      Data.orDefault default.defaultObject Data.text? (fields.lookup "defaultSobject") }

/-- The section of the client's settings, if there is one. -/
def section? : Data → Option Data
  | .record fields =>
    match fields.lookup "soql" with
    | none | some .null => none
    | some d => some d
  | _ => none

/-- Refuses settings whose default object has a blank name. -/
def validate (s : Settings) : Except SettingsError Settings :=
  if Text.isBlankText s.defaultObject then .error .blankObject else .ok s

def ofClient (d : Data) : Except SettingsError Settings :=
  match section? d with
  | none => default.validate
  | some sect =>
    match ofData? sect with
    | some s => s.validate
    | none => .error .malformed

end Settings

end SoqlAssist
