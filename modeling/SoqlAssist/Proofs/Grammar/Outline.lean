import SoqlAssist.Proofs.Grammar.Run
import SoqlAssist.Token.Basic
import SoqlAssist.Tree.Build

/-!
What the grammar reads of a stream: the visible tokens before the first visible `eof`. The events of
reading their kinds are given the positions of the tokens, from which the steps of building the tree
and the places of the problems are read off.
-/
namespace SoqlAssist

namespace Parse

/-- The part of a stream that the grammar reads. -/
structure Outline where
  /-- The visible tokens before the end, each with its position. -/
  shown : List (Nat × TokenKind)
  /-- The position of the token that marks the end, if there is one. -/
  mark : Option Nat
  /-- The position of the end: that of its mark, or the length of the stream. -/
  ending : Nat
  deriving DecidableEq, Repr

/-- The positions and kinds of the visible tokens, the first of which is at `i`. -/
def visible (i : Nat) : List Token → List (Nat × TokenKind)
  | [] => []
  | t :: ts => if t.isHidden then visible (i + 1) ts else (i, t.kind) :: visible (i + 1) ts

theorem visible_kinds (i : Nat) (tokens : List Token) :
    (visible i tokens).map (·.2) = (tokens.filter (!·.isHidden)).map (·.kind) := by
  induction tokens generalizing i with
  | nil => rfl
  | cons t tokens ih =>
    rw [visible]
    cases hidden : t.isHidden <;> simp [hidden, ih]

def Outline.ofTokens (tokens : TokenStream) : Outline :=
  let seen := visible 0 tokens.toList
  let mark := (seen.find? (·.2 == .eof)).map (·.1)
  ⟨seen.takeWhile (·.2 != .eof), mark, mark.getD tokens.size⟩

/-- An event of the reader with its position. -/
inductive Placed where
  | step (s : TreeStep)
  | problem (position : Nat) (p : Problem)
  deriving DecidableEq, Repr

def Placed.step? : Placed → Option TreeStep
  | .step s => some s
  | .problem _ _ => none

def Placed.problem? : Placed → Option (Nat × Problem)
  | .step _ => none
  | .problem i p => some (i, p)

/-- Gives events their positions: `ps` are those of the visible tokens not yet taken. -/
def place (mark : Option Nat) (ending : Nat) : (ps : List Nat) → List Grammar.Event → List Placed
  | _, [] => []
  | ps, .enter rule :: es => .step (.start rule (ps.headD ending)) :: place mark ending ps es
  | ps, .token :: es =>
    match ps with
    | [] => place mark ending [] es
    | p :: ps => .step (.token p) :: place mark ending ps es
  | ps, .endMark :: es =>
    match mark with
    | none => place mark ending ps es
    | some m => .step (.token m) :: place mark ending ps es
  | ps, .leave :: es => .step .finish :: place mark ending ps es
  | ps, .problem p :: es => .problem (ps.headD ending) p :: place mark ending ps es

theorem place_enters {mark : Option Nat} {ending : Nat} {ps : List Nat} (entered : List Rule)
    (es : List Grammar.Event) : place mark ending ps (entered.map .enter ++ es) =
      entered.map (fun rule => .step (.start rule (ps.headD ending))) ++
        place mark ending ps es := by
  induction entered with
  | nil => rfl
  | cons rule entered ih => exact congrArg _ ih

theorem step?_starts (entered : List Rule) (i : Nat) :
    (entered.map fun rule => Placed.step (.start rule i)).filterMap Placed.step? =
      entered.map (.start · i) := by
  simp [List.filterMap_map, Function.comp_def, Placed.step?]

/-- Keeps the first of neighbours with the same position. -/
def firstPerPosition (last : Option Nat) : List (Nat × α) → List (Nat × α)
  | [] => []
  | (i, a) :: rest =>
    if last = some i then firstPerPosition last rest
    else (i, a) :: firstPerPosition (some i) rest

/-- The reader's events over a stream, in their places. -/
def trace (tokens : TokenStream) : List Placed :=
  let outline := Outline.ofTokens tokens
  place outline.mark outline.ending (outline.shown.map (·.1))
    (Grammar.events (outline.shown.map (·.2)))

end Parse

end SoqlAssist
