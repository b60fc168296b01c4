import SoqlAssist.Document
import SoqlAssist.Proofs.Text.Lines

/-!
The lines of a document whose header is emptied. A header is cut at `\n` only, and of each piece the
breaks at its end stay. A lone `\r` ends a line too; one with more behind it in its piece goes with
the piece, and all that follows moves up by a line. Otherwise the lines stay as they are.
-/
namespace SoqlAssist.Document

open Text

variable {a b cs line : List Char} {c : Char}

/-- Up to the next `\n` there is nothing but returns. -/
def closesLine (cs : List Char) : Bool :=
  (cs.takeWhile (· ≠ '\n')).all (· == '\r')

def lineEnds : List Char → List Char
  | [] => []
  | c :: cs => if closesLine (c :: cs) then c :: lineEnds cs else lineEnds cs

/-- The number of returns with something else behind them in their piece. -/
def strayReturns : List Char → Nat
  | [] => 0
  | c :: cs => strayReturns cs + if c = '\r' ∧ closesLine cs = false then 1 else 0

theorem closesLine_cons (c : Char) (cs : List Char) :
    closesLine (c :: cs) = (c == '\n' || (c == '\r' && closesLine cs)) := by
  by_cases feed : c = '\n'
  · simp [closesLine, feed]
  · simp [closesLine, feed]

section Count

theorem head_lineEnds (closes : closesLine cs = true) : (lineEnds cs).head? = cs.head? := by
  cases cs with
  | nil => rfl
  | cons d cs => rw [lineEnds, if_pos closes, List.head?_cons, List.head?_cons]

/-- The breaks of a text are those at the ends of its pieces and the stray returns. -/
theorem countBreaks_lineEnds (cs : List Char) :
    countBreaks cs = countBreaks (lineEnds cs) + strayReturns cs := by
  induction cs with
  | nil => rfl
  | cons c cs ih =>
    rw [lineEnds, strayReturns, closesLine_cons]
    by_cases back : c = '\r'
    · subst back
      cases closes : closesLine cs with
      | true =>
        -- A pair is torn from what stays exactly if it is torn from what was there.
        have same : Torn ['\r'] (lineEnds cs) ↔ Torn ['\r'] cs := by
          rw [Torn, Torn, head_lineEnds closes]
        have whole := countBreaks_cons_add '\r' cs
        have kept := countBreaks_cons_add '\r' (lineEnds cs)
        simp only [same] at kept
        rw [if_pos (by decide), if_neg (by decide)]
        omega
      | false =>
        have apart : ¬ Torn ['\r'] cs := by
          intro torn
          obtain ⟨rest, _, rfl⟩ := torn_singleton.mp torn
          simp [closesLine_cons] at closes
        rw [if_neg (by decide), if_pos ⟨rfl, rfl⟩, countBreaks_cons apart,
          if_pos (by decide), ih]
        omega
    · have apart (ds : List Char) : ¬ Torn [c] ds := by
        intro torn
        obtain ⟨_, same, _⟩ := torn_singleton.mp torn
        exact back same
      by_cases feed : c = '\n'
      · subst feed
        rw [if_pos (by simp), if_neg (by simp), countBreaks_cons (apart _),
          countBreaks_cons (apart _), ih]
        omega
      · simp [countBreaks_cons (apart _), ih, isBreak, back, feed]

theorem strayReturns_eq_zero (cs : List Char) : strayReturns cs = 0 ↔
    ∀ before after, cs = before ++ '\r' :: after → ∀ c ∈ after.takeWhile (· ≠ '\n'), c = '\r' := by
  have closing (ds : List Char) :
      closesLine ds = true ↔ ∀ c ∈ ds.takeWhile (· ≠ '\n'), c = '\r' := by
    simp [closesLine]
  induction cs with
  | nil => simp [strayReturns]
  | cons d cs ih =>
    rw [strayReturns, Nat.add_eq_zero_iff]
    constructor
    · rintro ⟨rest, here⟩ before after split
      cases before with
      | nil =>
        obtain ⟨rfl, rfl⟩ := List.cons.inj split
        apply (closing cs).mp
        simpa using here
      | cons e before =>
        obtain ⟨_, split⟩ := List.cons.inj split
        exact ih.mp rest before after split
    · intro every
      constructor
      · apply ih.mpr
        intro before after split
        exact every (d :: before) after (by rw [split]; rfl)
      · rw [if_neg]
        rintro ⟨rfl, open'⟩
        have closes := (closing cs).mpr (every [] cs rfl)
        exact absurd (closes.symm.trans open') (by simp)

end Count

section Pieces

theorem closesLine_feed (a b : List Char) :
    closesLine (a ++ '\n' :: b) = closesLine (a ++ ['\n']) := by
  induction a with
  | nil => rfl
  | cons c a ih => rw [List.cons_append, List.cons_append, closesLine_cons, closesLine_cons, ih]

theorem lineEnds_feed (a b : List Char) :
    lineEnds (a ++ '\n' :: b) = lineEnds (a ++ ['\n']) ++ lineEnds b := by
  induction a with
  | nil => rfl
  | cons c a ih =>
    have same := closesLine_feed (c :: a) b
    rw [List.cons_append, List.cons_append] at same
    rw [List.cons_append, List.cons_append, lineEnds, lineEnds, same, ih]
    split <;> rfl

theorem getLast_lineEnds (a : List Char) : (lineEnds (a ++ ['\n'])).getLast? = some '\n' := by
  induction a with
  | nil => rfl
  | cons c a ih =>
    rw [List.cons_append, lineEnds]
    split
    · rw [List.getLast?_cons, ih]
      rfl
    · exact ih

theorem takeWhile_reverse (all : cs.all isBreak = true) :
    cs.reverse.takeWhile isBreak = cs.reverse := by
  apply List.takeWhile_eq_self_iff.mpr
  intro d member
  exact List.all_eq_true.mp all d (List.mem_reverse.mp member)

theorem lineEnd_cons (c : Char) (cs : List Char) :
    lineEnd (c :: cs) = if cs.all isBreak then (if isBreak c then c :: cs else cs)
      else lineEnd cs := by
  rw [lineEnd, List.reverse_cons, List.takeWhile_append, lineEnd]
  by_cases all : cs.all isBreak = true
  · rw [if_pos all, takeWhile_reverse all, if_pos rfl]
    cases broken : isBreak c <;> simp [broken]
  · rw [if_neg all, if_neg]
    intro same
    apply all
    have whole := (List.takeWhile_prefix isBreak).eq_of_length same
    apply List.all_eq_true.mpr
    intro d member
    exact List.takeWhile_eq_self_iff.mp whole d (List.mem_reverse.mpr member)

section Piece

variable {tail : List Char} (plain : '\n' ∉ a) (last : tail = [] ∨ tail = ['\n'])
include plain last

theorem closesLine_piece : closesLine (a ++ tail) = (a ++ tail).all isBreak := by
  induction a with
  | nil => rcases last with rfl | rfl <;> rfl
  | cons c a ih =>
    have other : (c == '\n') = false := by
      simpa using fun same => plain (by simp [same])
    have rest := ih fun member => plain (List.mem_cons_of_mem c member)
    rw [List.cons_append, closesLine_cons, List.all_cons, rest, isBreak, other, Bool.false_or,
      Bool.false_or]

theorem lineEnd_piece : lineEnd (a ++ tail) = lineEnds (a ++ tail) := by
  induction a with
  | nil => rcases last with rfl | rfl <;> rfl
  | cons c a ih =>
    have rest := ih fun member => plain (List.mem_cons_of_mem c member)
    have closes := closesLine_piece plain last
    rw [List.cons_append, List.all_cons] at closes
    rw [List.cons_append, lineEnd_cons, lineEnds, closes, ← rest]
    by_cases all : (a ++ tail).all isBreak = true
    · rw [all, lineEnd, takeWhile_reverse all, List.reverse_reverse]
      cases isBreak c <;> rfl
    · simp [all]

end Piece

theorem flatten_feedLines (cs : List Char) : (feedLines cs).flatten = cs := by
  fun_induction feedLines cs with
  | case1 => rfl
  | case2 c cs feed ih => rw [List.flatten_cons, ih, List.singleton_append]
  | case3 c cs feed empty ih =>
    rw [empty] at ih
    rw [← ih]
    rfl
  | case4 c cs feed line rest cut ih =>
    rw [cut, List.flatten_cons] at ih
    rw [List.flatten_cons, List.cons_append, ih]

/-- The first piece ends with `\n` and more can follow, or it is the last. -/
theorem feedLines_cons {rest : List (List Char)} (cut : feedLines cs = line :: rest) :
    (∃ body left, '\n' ∉ body ∧ line = body ++ ['\n'] ∧ rest = feedLines left) ∨
      '\n' ∉ line ∧ rest = [] := by
  fun_induction feedLines cs generalizing line rest with
  | case1 => exact absurd cut (by simp)
  | case2 c cs feed ih =>
    obtain ⟨rfl, rfl⟩ := List.cons.inj cut
    obtain rfl := beq_iff_eq.mp feed
    exact .inl ⟨[], cs, List.not_mem_nil, rfl, rfl⟩
  | case3 c cs feed empty ih =>
    obtain ⟨rfl, rfl⟩ := List.cons.inj cut
    have other : '\n' ≠ c := fun same => feed (beq_iff_eq.mpr same.symm)
    exact .inr ⟨by simp [other], rfl⟩
  | case4 c cs feed first others below ih =>
    obtain ⟨rfl, rfl⟩ := List.cons.inj cut
    have other : '\n' ≠ c := fun same => feed (beq_iff_eq.mpr same.symm)
    rcases ih below with ⟨body, left, plain, rfl, more⟩ | ⟨plain, none⟩
    · exact .inl ⟨c :: body, left, by simp [other, plain], rfl, more⟩
    · exact .inr ⟨by simp [other, plain], none⟩

/-- The line ends of pieces in a row are those of the text that they make; and where more pieces
follow, this text ends with `\n`. -/
theorem pieces_eq {front back : List (List Char)} (cut : feedLines cs = front ++ back) :
    front.flatMap lineEnd = lineEnds front.flatten ∧
      (back = [] ∨ front = [] ∨ ∃ a, front.flatten = a ++ ['\n']) := by
  induction front generalizing cs with
  | nil => exact ⟨rfl, .inr (.inl rfl)⟩
  | cons line front ih =>
    rw [List.flatMap_cons, List.flatten_cons]
    rcases feedLines_cons cut with ⟨body, left, plain, rfl, more⟩ | ⟨plain, none⟩
    · obtain ⟨ends, seam⟩ := ih more.symm
      constructor
      · rw [lineEnd_piece plain (.inr rfl), ends, ← lineEnds_feed, List.append_assoc]
        rfl
      · rcases seam with rfl | rfl | ⟨a, last⟩
        · exact .inl rfl
        · exact .inr (.inr ⟨body, by simp⟩)
        · exact .inr (.inr ⟨body ++ '\n' :: a, by simp [last]⟩)
    · obtain ⟨rfl, rfl⟩ := List.append_eq_nil_iff.mp none
      have ends : lineEnd (line ++ []) = lineEnds (line ++ []) := lineEnd_piece plain (.inl rfl)
      rw [List.append_nil] at ends
      exact ⟨by simpa using ends, .inl rfl⟩

end Pieces

/-- A header with its line ends, as `ofText` cuts it off: what is behind it is the query, and
between the two no pair is torn. -/
theorem ofText_split (text : String) :
    let d := ofText text
    text.toList = d.header.toList ++ d.query.toList ∧
      d.padded.toList = lineEnds d.header.toList ++ d.query.toList ∧
      ∀ p, p <+: d.query.toList →
        ¬ Torn d.header.toList p ∧ ¬ Torn (lineEnds d.header.toList) p := by
  intro d
  by_cases comments : ((feedLines text.toList).takeWhile isHeaderLine).countP isComment = 0
  · have plain : d = ⟨"", text, text, 0⟩ := by
      simp only [d, ofText, if_pos comments]
    rw [plain]
    exact ⟨rfl, rfl, fun p _ => ⟨not_torn_nil, not_torn_nil⟩⟩
  · have cut := (List.takeWhile_append_dropWhile (p := isHeaderLine)
      (l := feedLines text.toList)).symm
    obtain ⟨ends, seam⟩ := pieces_eq cut
    have whole := flatten_feedLines text.toList
    rw [cut, List.flatten_append] at whole
    have header : d.header.toList = ((feedLines text.toList).takeWhile isHeaderLine).flatten := by
      simp only [d, ofText, if_neg comments, String.toList_ofList]
    have query : d.query.toList = ((feedLines text.toList).dropWhile isHeaderLine).flatten := by
      simp only [d, ofText, if_neg comments, String.toList_ofList]
    have padded : d.padded.toList = ((feedLines text.toList).takeWhile isHeaderLine).flatMap lineEnd
        ++ ((feedLines text.toList).dropWhile isHeaderLine).flatten := by
      simp only [d, ofText, if_neg comments, String.toList_ofList]
    refine ⟨by rw [header, query, whole], by rw [padded, ends, header, query], ?_⟩
    intro p starts
    rw [header]
    rw [query] at starts
    rcases seam with last | none | ⟨a, feed⟩
    · rw [last] at starts
      rw [List.prefix_nil.mp starts]
      simp [Torn]
    · rw [none]
      exact ⟨not_torn_nil, not_torn_nil⟩
    · rw [feed]
      simp [Torn, getLast_lineEnds]

/-- Every line of the query is as many lines too high in the emptied document as the header has
stray returns: the number of lines stays as it is exactly if each return of the header has only
returns behind it in its piece. -/
theorem padded_lines_iff (text : String) :
    let d := ofText text
    text.toList = d.header.toList ++ d.query.toList ∧
      (∃ ends, d.padded.toList = ends ++ d.query.toList ∧ ∀ p, p <+: d.query.toList →
        countBreaks (d.header.toList ++ p) =
          countBreaks (ends ++ p) + strayReturns d.header.toList) ∧
      (countBreaks d.padded.toList = countBreaks text.toList ↔
        ∀ before after, d.header.toList = before ++ '\r' :: after →
          ∀ c ∈ after.takeWhile (· ≠ '\n'), c = '\r') := by
  intro d
  obtain ⟨whole, padded, apart⟩ := ofText_split text
  have shifted (p : List Char) (starts : p <+: d.query.toList) :
      countBreaks (d.header.toList ++ p) =
        countBreaks (lineEnds d.header.toList ++ p) + strayReturns d.header.toList := by
    have before := countBreaks_append d.header.toList p
    have after := countBreaks_append (lineEnds d.header.toList) p
    rw [if_neg (apart p starts).1] at before
    rw [if_neg (apart p starts).2] at after
    rw [Nat.add_zero] at before after
    rw [before, after, countBreaks_lineEnds]
    omega
  refine ⟨whole, ⟨_, padded, shifted⟩, ?_⟩
  have lines : countBreaks text.toList =
      countBreaks d.padded.toList + strayReturns d.header.toList := by
    rw [whole]
    exact (shifted _ (List.prefix_refl _)).trans (by rw [← padded])
  rw [← strayReturns_eq_zero, lines]
  omega

/-- A comment that a lone return ends swallows the query behind it, and the break is gone. -/
theorem padded_lines_return :
    countBreaks "// saved\rSELECT Id FROM Account".toList = 1 ∧
      countBreaks (ofText "// saved\rSELECT Id FROM Account").padded.toList = 0 := by
  constructor <;> cbv

end SoqlAssist.Document
