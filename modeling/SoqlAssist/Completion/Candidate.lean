import SoqlAssist.Query.Parsed
import SoqlAssist.Settings

/-!
Candidates: what could stand at the cursor as far as the grammar goes. They come from a predictor,
which is a parameter of completion. Whatever it answers, a kind of token that the settings ignore
and a rule that they do not prefer are dropped, and of candidates of one kind the first is kept.
-/
namespace SoqlAssist

/-- A kind of token that could come next, with the kinds that must follow it. -/
structure TokenCandidate where
  kind : TokenKind
  following : List TokenKind
  deriving DecidableEq, Repr

/-- A rule that could start or go on at the cursor. -/
structure RuleCandidate where
  rule : Rule
  /-- The rules around it, outermost first. -/
  path : List Rule
  /-- The position of its first token. -/
  start : Nat
  deriving DecidableEq, Repr

def RuleCandidate.parent? (c : RuleCandidate) : Option Rule :=
  c.path.getLast?

structure Candidates where
  tokens : List TokenCandidate
  rules : List RuleCandidate
  deriving DecidableEq, Repr

structure Prediction where
  query : ParsedQuery
  cursor : Nat
  settings : Settings

/-- Says which candidates there are at a position. -/
abbrev Predictor := Prediction → Candidates

namespace Candidates

/-- Keeps the first element for each key that is not among `seen`. -/
def firstOfEach [DecidableEq κ] (key : α → κ) (seen : List κ) : List α → List α
  | [] => []
  | x :: xs =>
    if key x ∈ seen then firstOfEach key seen xs
    else x :: firstOfEach key (key x :: seen) xs

def isEmpty (c : Candidates) : Bool :=
  c.tokens.isEmpty && c.rules.isEmpty

/-- The candidates that the settings admit, the first of each kind. -/
def admissible (settings : Settings) (c : Candidates) : Candidates where
  tokens := firstOfEach (·.kind) [] (c.tokens.filter fun t => !settings.ignoredTokens t.kind)
  rules := firstOfEach (·.rule) [] (c.rules.filter fun r => settings.preferredRules r.rule)

/-- Asks a predictor and keeps what the settings admit. -/
def collect (predict : Predictor) (query : ParsedQuery) (cursor : Nat) (settings : Settings) :
    Candidates :=
  (predict ⟨query, cursor, settings⟩).admissible settings

end Candidates

end SoqlAssist
