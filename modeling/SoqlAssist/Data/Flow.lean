import SoqlAssist.Data

/-!
Data in flow style, as a file holds it: texts and keys stand between quotation marks, and only
quotation marks, backslashes and the control characters below the space are escaped. All else stands
as it is, so a text must not hold a character that files exclude, and its line breaks are folded
when the file is read.
-/
namespace SoqlAssist.Flow

/-- The character is written as an escape. -/
def isEscaped (c : Char) : Bool :=
  c.toNat < 0x20 || c == '"' || c == '\\'

/-- A file may hold the character as it is. -/
def isPrintable (c : Char) : Bool :=
  let n := c.toNat
  (0x20 ≤ n && n ≤ 0x7E) || n == 0x85 || (0xA0 ≤ n && n ≤ 0xFFFD) || 0x10000 ≤ n

/-- A file may hold the character, as it is or as an escape. -/
def isAllowed (c : Char) : Bool :=
  isEscaped c || isPrintable c

/-- The line break that reads as the end of a line. -/
def nextLine : Char := Char.ofNat 0x85

/-- A line break that is not escaped: next line, line separator or paragraph separator. -/
def isBreak (c : Char) : Bool :=
  c == nextLine || c.toNat == 0x2028 || c.toNat == 0x2029

def isGap (c : Char) : Bool :=
  c == ' ' || isBreak c

def breakText (breaks : List Char) : List Char :=
  breaks.map fun c => if c == nextLine then '\n' else c

/-- What a run of spaces and line breaks reads as. Spaces around a break are dropped. A first break
that only ends a line is a space if it is alone and nothing if others follow. -/
def foldGap (gap : List Char) : List Char :=
  match gap.filter isBreak with
  | [] => gap
  | first :: rest =>
    if first == nextLine then (if rest.isEmpty then [' '] else breakText rest)
    else first :: breakText rest

/-- Folds the line breaks of a text. -/
def fold (cs : List Char) : List Char :=
  (cs.splitBy fun a b => isGap a == isGap b).flatMap fun run =>
    if run.any isGap then foldGap run else run

/-- A line starts here that marks the start or the end of a document. -/
def startsMark : List Char → Bool
  | c :: m₁ :: m₂ :: m₃ :: next :: _ =>
    isBreak c && isGap next && ([m₁, m₂, m₃] == ['-', '-', '-'] || [m₁, m₂, m₃] == ['.', '.', '.'])
  | _ => false

/-- Some line of a text marks the start or the end of a document. -/
def holdsMark : List Char → Bool
  | [] => false
  | c :: cs => startsMark (c :: cs) || holdsMark cs

/-- How many characters a character is written with. -/
def writtenLength (c : Char) : Nat :=
  if !isEscaped c then 1
  else if ['"', '\\', '\n', '\r', '\t', Char.ofNat 0x08, Char.ofNat 0x0C].contains c then 2
  else 6

/-- The length of a text between its quotation marks, and the marks. -/
def quotedLength (cs : List Char) : Nat :=
  cs.foldl (fun n c => n + writtenLength c) 2

/-- The greatest length of a key with its quotation marks. -/
def maxKeyLength : Nat := 1024

def text? (s : String) : Option String :=
  let cs := s.toList
  if cs.all isAllowed && !holdsMark cs then some (String.ofList (fold cs)) else none

/-- A key is short and stands on one line. -/
def isKey (s : String) : Bool :=
  let cs := s.toList
  cs.all (fun c => isAllowed c && !isBreak c) && quotedLength cs ≤ maxKeyLength

mutual

/-- Reads a file that holds some data. -/
def read? : Data → Option Data
  | .null => some .null
  | .bool b => some (.bool b)
  | .number mantissa places => some (.number mantissa places)
  | .text s => (text? s).map .text
  | .list items => (readList? items).map .list
  | .record fields => (readFields? fields).map .record

def readList? : List Data → Option (List Data)
  | [] => some []
  | d :: ds => do pure ((← read? d) :: (← readList? ds))

def readFields? : List (String × Data) → Option (List (String × Data))
  | [] => some []
  | (key, d) :: fields => do
    let value ← read? d
    let rest ← readFields? fields
    if isKey key then some ((key, value) :: rest) else none

end

end SoqlAssist.Flow
