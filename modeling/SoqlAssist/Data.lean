/-!
Plain data, as settings, items and scenarios are exchanged: null, truth values, numbers, texts,
lists and records. A record with known keys may also be written as the list of its values in the
order of the keys, and a name as a record with that name as its only key.
-/
namespace SoqlAssist

inductive Data where
  | null
  | bool (b : Bool)
  /-- The number `mantissa / 10 ^ places`. -/
  | number (mantissa : Int) (places : Nat)
  | text (s : String)
  | list (items : List Data)
  | record (fields : List (String × Data))
  deriving Repr, Inhabited

namespace Data

def nat (n : Nat) : Data := .number n 0

def texts (xs : List String) : Data := .list (xs.map .text)

/-- The fields of a record that have a value. -/
def present (fields : List (String × Option Data)) : Data :=
  .record (fields.filterMap fun (key, value) => value.map (key, ·))

def text? : Data → Option String
  | .text s => some s
  | _ => none

def bool? : Data → Option Bool
  | .bool b => some b
  | _ => none

/-- Reads a natural number below a limit, written without a fraction. -/
def natBelow? (limit : Nat) : Data → Option Nat
  | .number (.ofNat n) 0 => if n < limit then some n else none
  | _ => none

/-- Reads a natural number of 64 bits. -/
def nat? : Data → Option Nat := natBelow? UInt64.size

def nat32? (d : Data) : Option UInt32 := (d.natBelow? UInt32.size).map Nat.toUInt32

def list? (f : Data → Option α) : Data → Option (List α)
  | .list items => items.mapM f
  | _ => none

/-- Reads a name: a text, or a record that has the name as its only key and no value for it. -/
def name? (ofName? : String → Option α) : Data → Option α
  | .text s => ofName? s
  | .record [(s, .null)] => ofName? s
  | _ => none

/-- Reads the fields of a record with the given keys. Written as a list, it has at least `least` of
the values. -/
def fields? (keys : List String) (least : Nat) : Data → Option (List (String × Data))
  | .record fields => some fields
  | .list items =>
    if least ≤ items.length ∧ items.length ≤ keys.length then some (keys.zip items) else none
  | _ => none

/-- Reads a value that must be there. -/
def required (f : Data → Option α) : Option Data → Option α
  | some d => f d
  | none => none

/-- Reads a value that may be missing and then has a default. -/
def orDefault (fallback : α) (f : Data → Option α) : Option Data → Option α
  | some d => f d
  | none => some fallback

/-- Reads a value that may be missing or null. -/
def optional (f : Data → Option α) : Option Data → Option (Option α)
  | none | some .null => some none
  | some d => (f d).map some

end Data

end SoqlAssist
