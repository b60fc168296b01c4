import SoqlAssist.Data
import SoqlAssist.Decimal.Shortest

/-!
Single values as texts. Whole numbers of 64 bits keep all their digits; other numbers are stored in
binary and written with the fewest digits that are stored the same.
-/
namespace SoqlAssist

/-- Where a number is written without an exponent. -/
structure NumberLayout where
  /-- So many zeros may stand between the point and the first digit. -/
  zerosAfterPoint : Nat
  /-- So many digits may stand before the point. -/
  digitsBeforePoint : Nat
  deriving DecidableEq, Repr

namespace NumberLayout

/-- Writes digits and a point: at least one digit stands on each side of it. Otherwise the point
comes after the first of several digits, and the exponent follows. -/
def write (layout : NumberLayout) (d : Decimal.Digits) : String :=
  match d.point with
  | .ofNat (n + 1) =>
    if layout.digitsBeforePoint < n + 1 then exponential d
    else
      let whole := d.digits.take (n + 1) ++ List.replicate (n + 1 - d.digits.length) '0'
      let fraction := d.digits.drop (n + 1)
      String.ofList (whole ++ '.' :: if fraction.isEmpty then ['0'] else fraction)
  | small =>
    let zeros := small.natAbs
    if layout.zerosAfterPoint < zeros then exponential d
    else String.ofList ('0' :: '.' :: (List.replicate zeros '0' ++ d.digits))
where
  /-- The digits with the point after the first, and the exponent. -/
  exponential (d : Decimal.Digits) : String :=
    let fraction := d.digits.drop 1
    String.ofList (d.digits.take 1 ++ if fraction.isEmpty then [] else '.' :: fraction) ++
      "e" ++ toString (d.point - 1)

end NumberLayout

namespace Data

/-- Up to four zeros after the point and sixteen digits before it. -/
def numberLayout : NumberLayout := ⟨4, 16⟩

/-- The number is whole and has 64 bits, with a sign or without. -/
def isWord (mantissa : Int) (places : Nat) : Bool :=
  places == 0 && Int64.minValue.toInt ≤ mantissa && mantissa < UInt64.size

def fractionText (mantissa : Int) (places : Nat) : String :=
  let stored := Decimal.Binary.ofRatio ⟨mantissa.natAbs, Nat.pow 10 places⟩
  let size :=
    if stored.significand = 0 then "0.0" else numberLayout.write (Decimal.shortest stored)
  if mantissa < 0 then "-" ++ size else size

def numberText (mantissa : Int) (places : Nat) : String :=
  if isWord mantissa places then toString mantissa else fractionText mantissa places

def scalarText? : Data → Option String
  | .null => some "null"
  | .bool b => some (if b then "true" else "false")
  | .number mantissa places => some (numberText mantissa places)
  | .text s => some s
  | .list _ | .record _ => none

end Data

end SoqlAssist
