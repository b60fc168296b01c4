/-!
Blank characters: the Unicode property `White_Space`, all twenty-five code points of it.
Queries are split, trimmed and lexed by this class, so a no-break space separates words and a
zero-width space does not.
-/
namespace SoqlAssist.Text

/-- The code points with the property `White_Space`. -/
def isBlank (c : Char) : Bool :=
  let n := c.toNat
  (0x09 ≤ n && n ≤ 0x0D) || n == 0x20 || n == 0x85 || n == 0xA0 || n == 0x1680 ||
    (0x2000 ≤ n && n ≤ 0x200A) || n == 0x2028 || n == 0x2029 || n == 0x202F || n == 0x205F ||
    n == 0x3000

def isBlankText (s : String) : Bool :=
  s.toList.all isBlank

/-- The words of a text: its maximal runs of characters that are not blank. -/
def wordsOf : List Char → List (List Char)
  | [] => []
  | c :: cs =>
    if isBlank c then wordsOf cs
    else (c :: cs.takeWhile (!isBlank ·)) :: wordsOf (cs.dropWhile (!isBlank ·))
termination_by cs => cs.length
decreasing_by
  · exact Nat.lt_succ_self _
  · exact Nat.lt_succ_of_le (List.dropWhile_sublist _).length_le

/-- The words of a text with one space between neighbours. -/
def squeeze (s : String) : String :=
  String.ofList ([' '].intercalate (wordsOf s.toList))

end SoqlAssist.Text
