import SoqlAssist.Token.Basic

/-!
Patterns of visible tokens around a position. A pattern is a sequence of alternatives, each a list
of kinds. Looking back, a token is compared with the alternative expected next, of those that
remain in reverse; looking ahead, with the alternative behind those already matched.
-/
namespace SoqlAssist.Lookaround

/-- The visible tokens before a position, nearest first. -/
def visibleBefore (tokens : TokenStream) (i : Nat) : List Token :=
  ((tokens.toList.take i).filter (!·.isHidden)).reverse

def visibleFrom (tokens : TokenStream) (i : Nat) : List Token :=
  (tokens.toList.drop i).filter (!·.isHidden)

/-- Tokens fit the alternatives up to the last one, from the one expected first. -/
def fitsExpected : List Token → (expected : Option (List TokenKind)) →
    (remaining : List (List TokenKind)) → Bool
  | [], _, _ => false
  | _ :: _, none, _ => false
  | t :: ts, some kinds, remaining =>
    if !kinds.contains t.kind then false
    else if remaining.head?.isNone then true
    else fitsExpected ts remaining.head? remaining.tail

/-- The visible tokens right before a position fit the pattern. -/
def isAfter (tokens : TokenStream) (i : Nat) (pattern : List (List TokenKind)) : Bool :=
  if pattern.isEmpty then true
  else fitsExpected (visibleBefore tokens i) pattern.reverse.head? pattern.reverse.tail

/-- Tokens fit the alternatives of a pattern up to the last one, once the first ones have been
matched. -/
def fitsFrom (pattern : List (List TokenKind)) : List Token → (matched : Fin pattern.length) → Bool
  | [], _ => false
  | t :: ts, matched =>
    if !pattern[matched].contains t.kind then false
    else if whole : matched.val + 1 = pattern.length then true
    else fitsFrom pattern ts ⟨matched.val + 1, Nat.lt_of_le_of_ne matched.isLt whole⟩

def isBefore (tokens : TokenStream) (i : Nat) (pattern : List (List TokenKind)) : Bool :=
  if more : 0 < pattern.length then fitsFrom pattern (visibleFrom tokens i) ⟨0, more⟩
  else true

/-- The nearest visible token before a position of one of the kinds. -/
def lastBefore? (tokens : TokenStream) (i : Nat) (kinds : List TokenKind) : Option Token :=
  (visibleBefore tokens i).find? (kinds.contains ·.kind)

end SoqlAssist.Lookaround
