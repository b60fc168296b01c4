import Mathlib.Data.List.TakeWhile
import SoqlAssist.Proofs.Text.Header

/-!
A document is its header and its query. The header is made of whole lines, blanks or comments, and
all comments in front of the query are in it; so neither the query nor the document with its header
emptied has a header, and splitting either of them changes nothing.
-/
namespace SoqlAssist.Document

open Text

variable {a b cs line : List Char} {front back : List (List Char)} {text : String}

section Pieces

theorem feedLines_ne_nil (some : cs ≠ []) : feedLines cs ≠ [] := by
  intro none
  apply some
  rw [← flatten_feedLines cs, none, List.flatten_nil]

/-- A text is cut behind each `\n`. -/
theorem feedLines_feed (a b : List Char) :
    feedLines (a ++ '\n' :: b) = feedLines (a ++ ['\n']) ++ feedLines b := by
  induction a with
  | nil => rfl
  | cons c a ih =>
    rw [List.cons_append, List.cons_append, feedLines, feedLines, ih]
    split
    · rfl
    · cases cut : feedLines (a ++ ['\n']) with
      | nil => exact absurd cut (feedLines_ne_nil (by simp))
      | cons line rest => rfl

/-- Between the two texts there is a line end, or one of them is empty. -/
def Seam (a b : List Char) : Prop :=
  b = [] ∨ a = [] ∨ ∃ body, a = body ++ ['\n']

theorem feedLines_append (seam : Seam a b) : feedLines (a ++ b) = feedLines a ++ feedLines b := by
  rcases seam with rfl | rfl | ⟨body, rfl⟩
  · rw [List.append_nil, feedLines, List.append_nil]
  · rfl
  · rw [List.append_assoc, List.singleton_append, feedLines_feed]

/-- The last pieces of a text are the pieces of what they make. -/
theorem feedLines_flatten (cut : feedLines cs = front ++ back) :
    feedLines back.flatten = back := by
  induction front generalizing cs with
  | nil =>
    rw [List.nil_append] at cut
    rw [← cut, flatten_feedLines]
  | cons line front ih =>
    rcases feedLines_cons cut with ⟨_, left, _, _, more⟩ | ⟨_, none⟩
    · exact ih more.symm
    · rw [(List.append_eq_nil_iff.mp none).2]
      rfl

theorem seam_of_cut (cut : feedLines cs = front ++ back) : Seam front.flatten back.flatten := by
  rcases (pieces_eq cut).2 with rfl | rfl | last
  · exact .inl rfl
  · exact .inr (.inl rfl)
  · exact .inr (.inr last)

/-- So are the first ones. -/
theorem feedLines_flatten_front (cut : feedLines cs = front ++ back) :
    feedLines front.flatten = front := by
  have whole : feedLines (front.flatten ++ back.flatten) = front ++ back := by
    rw [← List.flatten_append, ← cut, flatten_feedLines]
  rw [feedLines_append (seam_of_cut cut), feedLines_flatten cut] at whole
  exact List.append_cancel_right whole

end Pieces

section Breaks

theorem Seam.lineEnds (seam : Seam a b) : Seam (lineEnds a) b := by
  rcases seam with rfl | rfl | ⟨body, rfl⟩
  · exact .inl rfl
  · exact .inr (.inl rfl)
  · exact .inr (.inr (List.getLast?_eq_some_iff.mp (getLast_lineEnds body)))

theorem isBreak_of_mem_lineEnds {c : Char} (member : c ∈ lineEnds cs) : isBreak c = true := by
  induction cs with
  | nil => cases member
  | cons d cs ih =>
    rw [lineEnds] at member
    split at member
    · rename_i closes
      rcases List.mem_cons.mp member with rfl | later
      · rw [closesLine_cons, Bool.or_eq_true, Bool.and_eq_true] at closes
        rw [isBreak, Bool.or_eq_true]
        exact closes.imp_right And.left
      · exact ih later
    · exact ih member

/-- A line of breaks only is an empty line: it may stand in a header and is no comment. -/
theorem empty_line (breaks : ∀ c ∈ line, isBreak c = true) :
    isHeaderLine line = true ∧ isComment line = false := by
  have body : lineBody line = [] := by
    rw [lineBody, List.reverse_eq_nil_iff, List.dropWhile_eq_nil_iff]
    intro c member
    exact breaks c (List.mem_reverse.mp member)
  constructor
  · rw [isHeaderLine, body]
    simp
  · rw [isComment, body]
    rfl

theorem empty_lines (breaks : ∀ c ∈ cs, isBreak c = true) :
    ∀ line ∈ feedLines cs, isHeaderLine line = true ∧ isComment line = false := by
  intro line member
  apply empty_line
  intro c inside
  apply breaks
  rw [← flatten_feedLines cs]
  exact List.mem_flatten_of_mem member inside

end Breaks

def leadingLines (cs : List Char) : List (List Char) :=
  (feedLines cs).takeWhile isHeaderLine

theorem leadingLines_append (seam : Seam a b) (breaks : ∀ c ∈ a, isBreak c = true) :
    leadingLines (a ++ b) = feedLines a ++ leadingLines b := by
  rw [leadingLines, feedLines_append seam, List.takeWhile_append_of_pos]
  · rfl
  · exact fun line member => (empty_lines breaks line member).1

theorem commentLines_ofText (text : String) :
    (ofText text).commentLines = (leadingLines text.toList).countP isComment := by
  rw [ofText, leadingLines]
  split
  · rename_i none
    exact none.symm
  · rfl

theorem ofText_eq_self (none : (ofText text).commentLines = 0) :
    ofText text = ⟨"", text, text, 0⟩ := by
  rw [commentLines_ofText] at none
  exact if_pos none

theorem commentLines_eq_zero_iff :
    (ofText text).commentLines = 0 ↔ ∀ line ∈ leadingLines text.toList, isComment line = false := by
  rw [commentLines_ofText, List.countP_eq_zero]
  simp only [Bool.not_eq_true]

/-- A document is cut between two of its lines. Before the cut there are only lines of a header, and
behind it no comment comes before the query; without any comment the cut is at the start. -/
theorem ofText_cut (text : String) :
    ∃ front back, feedLines text.toList = front ++ back ∧
      (ofText text).header.toList = front.flatten ∧ (ofText text).query.toList = back.flatten ∧
      (∀ line ∈ front, isHeaderLine line = true) ∧
      (∀ line ∈ back.takeWhile isHeaderLine, isComment line = false) ∧
      (ofText text).commentLines = front.countP isComment ∧
      ((ofText text).commentLines = 0 → front = []) := by
  by_cases none : (ofText text).commentLines = 0
  · refine ⟨[], feedLines text.toList, rfl, ?_, ?_, List.forall_mem_nil _,
      commentLines_eq_zero_iff.mp none, none, fun _ => rfl⟩
    · rw [ofText_eq_self none]
      rfl
    · rw [ofText_eq_self none, flatten_feedLines]
  · have count := commentLines_ofText text
    have split : ofText text = ⟨String.ofList (leadingLines text.toList).flatten,
        String.ofList ((feedLines text.toList).dropWhile isHeaderLine).flatten, _, _⟩ :=
      if_neg (count ▸ none)
    refine ⟨leadingLines text.toList, (feedLines text.toList).dropWhile isHeaderLine,
      List.takeWhile_append_dropWhile.symm, ?_, ?_, ?_, ?_, count, fun zero => absurd zero none⟩
    · rw [split, String.toList_ofList]
    · rw [split, String.toList_ofList]
    · exact fun line member => List.mem_takeWhile_imp member
    · -- The first line behind the header stops it.
      rw [List.takeWhile_eq_nil_iff.mpr (List.dropWhile_get_zero_not isHeaderLine _)]
      exact List.forall_mem_nil _

/-- A document is its header and its query, whole lines each, and the header has the comments in
front of the query and nothing but comments and blanks. Emptied, it keeps only line ends; neither
the query nor the emptied document has a header, so that emptying it again changes nothing. -/
theorem ofText_partition (text : String) :
    let d := ofText text
    d.header ++ d.query = text ∧
      (∃ ends : String, d.padded = ends ++ d.query ∧ (∀ c ∈ ends.toList, c = '\r' ∨ c = '\n') ∧
        (d.commentLines = 0 → ends = "")) ∧
      ((ofText d.query).commentLines = 0 ∧ (ofText d.padded).commentLines = 0 ∧
        (ofText d.padded).padded = d.padded) ∧
      (∀ line ∈ feedLines d.header.toList, isHeaderLine line = true) ∧
      d.commentLines = (feedLines d.header.toList).countP isComment ∧
      ∀ line ∈ leadingLines d.query.toList, isComment line = false := by
  intro d
  obtain ⟨whole, padded, _⟩ := ofText_split text
  obtain ⟨front, back, cut, header, query, blanks, plain, count, start⟩ := ofText_cut text
  have above : feedLines d.header.toList = front := by
    rw [header, feedLines_flatten_front cut]
  have below : ∀ line ∈ leadingLines d.query.toList, isComment line = false := by
    rwa [query, leadingLines, feedLines_flatten cut]
  have breaks : ∀ c ∈ lineEnds d.header.toList, isBreak c = true :=
    fun c member => isBreak_of_mem_lineEnds member
  have seam : Seam (lineEnds d.header.toList) d.query.toList := by
    rw [header, query]
    exact (seam_of_cut cut).lineEnds
  have emptied : (ofText d.padded).commentLines = 0 := by
    apply commentLines_eq_zero_iff.mpr
    rw [padded, leadingLines_append seam breaks]
    intro line member
    rcases List.mem_append.mp member with empty | leading
    · exact (empty_lines breaks line empty).2
    · exact below line leading
  refine ⟨?_, ⟨String.ofList (lineEnds d.header.toList), ?_, ?_, ?_⟩,
    ⟨commentLines_eq_zero_iff.mpr below, emptied, ?_⟩, ?_, ?_, below⟩
  · rw [← String.toList_inj, String.toList_append, ← whole]
  · rw [← String.toList_inj, String.toList_append, String.toList_ofList, ← padded]
  · rw [String.toList_ofList]
    intro c member
    have broken := breaks c member
    rw [isBreak, Bool.or_eq_true, beq_iff_eq, beq_iff_eq] at broken
    exact broken.symm
  · intro zero
    rw [header, start zero, List.flatten_nil, lineEnds, String.ofList_nil]
  · rw [ofText_eq_self emptied]
  · rw [above]
    exact blanks
  · rw [above]
    exact count

def commentedQuery : String := "// a\r\n\n // b\nSELECT Id"

/-- The indented comment is a line of the header, and blank lines alone are no header. -/
theorem ofText_partition_commentedQuery :
    ((ofText commentedQuery).commentLines = 2 ∧
        (ofText commentedQuery).header ++ (ofText commentedQuery).query = commentedQuery ∧
        " // b\n".toList ∈ feedLines (ofText commentedQuery).header.toList ∧
        isHeaderLine " // b\n".toList = true) ∧
      (ofText "\n\nSELECT Id").commentLines = 0 ∧
        ∃ ends : String, (ofText "\n\nSELECT Id").padded = ends ++ (ofText "\n\nSELECT Id").query ∧
          ends = "" := by
  have two : (ofText commentedQuery).commentLines = 2 := by decide +kernel
  have member : " // b\n".toList ∈ feedLines (ofText commentedQuery).header.toList := by
    decide +kernel
  have zero : (ofText "\n\nSELECT Id").commentLines = 0 := by decide +kernel
  obtain ⟨whole, _, _, lines, _⟩ := ofText_partition commentedQuery
  obtain ⟨_, ⟨ends, padded, _, empty⟩, _⟩ := ofText_partition "\n\nSELECT Id"
  exact ⟨⟨two, whole, member, lines _ member⟩, zero, ends, padded, empty zero⟩

end SoqlAssist.Document
