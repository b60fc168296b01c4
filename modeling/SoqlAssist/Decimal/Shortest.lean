/-!
Shortest decimals. A ratio is stored as the nearest binary number of 53 significant bits, of two
equally near the even one; `shortest` gives the fewest decimal digits that are stored as the same
number. All arithmetic is exact, on natural numbers.
-/
namespace SoqlAssist.Decimal

structure Ratio where
  num : Nat
  den : Nat
  deriving DecidableEq, Repr

def Ratio.scale (r : Ratio) (base : Nat) : Int → Ratio
  | .ofNat n => ⟨r.num * base.pow n, r.den⟩
  | .negSucc n => ⟨r.num, r.den * base.pow (n + 1)⟩

/-- The natural number nearest to a ratio, of two equally near the even one. -/
def Ratio.round (r : Ratio) : Nat :=
  let q := r.num / r.den
  let twice := 2 * (r.num % r.den)
  if twice < r.den ∨ (twice = r.den ∧ q % 2 = 0) then q else q + 1

/-- The number `significand * 2 ^ exponent`. -/
structure Binary where
  significand : Nat
  exponent : Int
  deriving DecidableEq, Repr

namespace Binary

/-- The first significand with more than 53 bits. -/
def limit : Nat := Nat.pow 2 53

def leastExponent : Int := -1074

def toRatio (b : Binary) : Ratio :=
  Ratio.scale ⟨b.significand, 1⟩ 2 b.exponent

/-- The exponent at which a positive ratio has a significand of 53 bits, or the least exponent. -/
def exponentOf (r : Ratio) : Int :=
  let e : Int := (r.num.log2 : Int) - r.den.log2 - 53
  let scaled := r.scale 2 (-e)
  max leastExponent (if scaled.num < limit * scaled.den then e else e + 1)

/-- The number nearest to a positive ratio. -/
def ofRatio (r : Ratio) : Binary :=
  let e := exponentOf r
  let m := (r.scale 2 (-e)).round
  if m = limit then ⟨limit / 2, e + 1⟩ else ⟨m, e⟩

end Binary

/-- The digits of a positive number after the point, and the power of ten that they are scaled by:
`0.digits * 10 ^ point`. The last digit is not zero. -/
structure Digits where
  digits : List Char
  point : Int
  deriving DecidableEq, Repr

def digitCount (n : Nat) : Nat := (Nat.toDigits 10 n).length

/-- The power of ten that a positive ratio is below and a tenth of which it is not below. -/
def magnitude (r : Ratio) : Int :=
  if r.den ≤ r.num then digitCount (r.num / r.den) else 1 - digitCount ((r.den - 1) / r.num)

/-- The digits of the positive number `n * 10 ^ exponent`. -/
def Digits.ofScaled (n : Nat) (exponent : Int) : Digits :=
  let digits := Nat.toDigits 10 n
  ⟨(digits.reverse.dropWhile (· == '0')).reverse, exponent + digits.length⟩

/-- Of the two neighbours of a number among decimals of `places` digits, those that are stored as
the number; the nearer one if both are, of two equally near the even one. -/
def shortest? (b : Binary) (places : Nat) : Option Digits :=
  let exponent := magnitude b.toRatio - places
  let scaled := b.toRatio.scale 10 (-exponent)
  let below := scaled.num / scaled.den
  let readsBack (n : Nat) : Bool := Binary.ofRatio (Ratio.scale ⟨n, 1⟩ 10 exponent) == b
  match readsBack below, readsBack (below + 1) with
  | true, true => some (.ofScaled scaled.round exponent)
  | true, false => some (.ofScaled below exponent)
  | false, true => some (.ofScaled (below + 1) exponent)
  | false, false => none

/-- The fewest digits that are stored as a positive number. Seventeen are always enough. -/
def shortest (b : Binary) : Digits :=
  ((List.range 17).findSome? fun n => shortest? b (n + 1)).getD ⟨[], 0⟩

end SoqlAssist.Decimal
