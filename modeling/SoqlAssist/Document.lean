import SoqlAssist.Text.Blank
import SoqlAssist.Text.Lines

/-!
Documents with a header. Lines that start with `//` may stand before a query; the lexer does not
know them, so they are emptied before parsing and only their line ends stay, which keeps the line
numbers of the query.
-/
namespace SoqlAssist

/-- A document split at the end of its header. -/
structure Document where
  /-- The header lines with their ends. -/
  header : String
  /-- The text after the header. -/
  query : String
  /-- The whole text with the header lines emptied. -/
  padded : String
  /-- How many header lines are comments. -/
  commentLines : Nat
  deriving DecidableEq, Repr

namespace Document

def lineEnd (line : List Char) : List Char :=
  (line.reverse.takeWhile Text.isBreak).reverse

def lineBody (line : List Char) : List Char :=
  (line.reverse.dropWhile Text.isBreak).reverse

/-- A line that starts with `//`, blanks aside. -/
def isComment (line : List Char) : Bool :=
  "//".toList.isPrefixOf ((lineBody line).dropWhile Text.isBlank)

/-- A line that may stand in a header: a comment or blanks only. -/
def isHeaderLine (line : List Char) : Bool :=
  isComment line || (lineBody line).all Text.isBlank

/-- Splits off the header: the lines before the first that is neither blank nor a comment. Blank
lines without any comment are no header. -/
def ofText (text : String) : Document :=
  let lines := Text.feedLines text.toList
  let header := lines.takeWhile isHeaderLine
  let query := (lines.dropWhile isHeaderLine).flatten
  let comments := header.countP isComment
  if comments = 0 then ⟨"", text, text, 0⟩
  else
    ⟨String.ofList header.flatten, String.ofList query,
      String.ofList (header.flatMap lineEnd ++ query), comments⟩

end Document

end SoqlAssist
