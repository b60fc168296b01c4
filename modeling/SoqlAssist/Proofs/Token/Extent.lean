import SoqlAssist.Proofs.Text.Lines
import SoqlAssist.Token.Lexer

/-!
What a token takes of the text. Blanks and comments are the tokens that may hold line breaks, and so
are strings, where a backslash takes a break with it; all other tokens stand on one line. No token
reaches past the end of the text. A pair `\r\n` is torn only behind a string: blanks take both
halves, and a comment ends before a break, with its closing sign or with the text.
-/
namespace SoqlAssist.Lexer

open Text

variable {c : Char} {cs : List Char} {m n : Nat}

section Inline

/-- The next `n` characters are there and hold no line break. -/
def Inline (n : Nat) (cs : List Char) : Prop :=
  n ≤ cs.length ∧ (cs.take n).any isBreak = false

theorem inline_zero : Inline 0 cs :=
  ⟨Nat.zero_le _, rfl⟩

theorem inline_cons : Inline (n + 1) (c :: cs) ↔ isBreak c = false ∧ Inline n cs := by
  simp only [Inline, List.length_cons, Nat.add_le_add_iff_right, List.take_succ_cons,
    List.any_cons, Bool.or_eq_false_iff]
  exact and_left_comm

theorem Inline.add (first : Inline m cs) (second : Inline n (cs.drop m)) :
    Inline (m + n) cs := by
  obtain ⟨enough, plain⟩ := first
  obtain ⟨enough', plain'⟩ := second
  rw [List.length_drop] at enough'
  refine ⟨by omega, ?_⟩
  rw [List.take_add, List.any_append, plain, plain']
  rfl

theorem isBreak_of_class {p : Char → Bool} (feed : p '\n' = false) (back : p '\r' = false)
    (member : p c = true) : isBreak c = false := by
  rw [isBreak, Bool.or_eq_false_iff, beq_eq_false_iff_ne, beq_eq_false_iff_ne]
  constructor
  · rintro rfl
    exact absurd member (by simp [feed])
  · rintro rfl
    exact absurd member (by simp [back])

theorem isBreak_of_solid (solid : isBlank c = false) : isBreak c = false :=
  isBreak_of_class (p := (!isBlank ·)) (by decide) (by decide) (by simp [solid])

theorem take_runLength (p : Char → Bool) (cs : List Char) :
    cs.take (runLength p cs) = cs.takeWhile p :=
  (List.prefix_iff_eq_take.mp (List.takeWhile_prefix p)).symm

theorem drop_runLength (p : Char → Bool) (cs : List Char) :
    cs.drop (runLength p cs) = cs.dropWhile p := by
  have whole := (List.take_append_drop (runLength p cs) cs).trans
    (List.takeWhile_append_dropWhile (p := p) (l := cs)).symm
  rw [take_runLength] at whole
  exact List.append_cancel_left whole

theorem inline_runLength {p : Char → Bool} (feed : p '\n' = false) (back : p '\r' = false) :
    Inline (runLength p cs) cs := by
  refine ⟨(List.takeWhile_prefix p).length_le, ?_⟩
  rw [take_runLength, List.any_eq_false]
  intro c member
  simp [isBreak_of_class feed back (List.mem_takeWhile_imp member)]

theorem inline_startsWith {pattern : List Char} (plain : pattern.any isBreak = false)
    (starts : startsWith pattern cs = true) : Inline pattern.length cs := by
  fun_induction startsWith pattern cs with
  | case1 => exact inline_zero
  | case2 => exact absurd starts (by simp)
  | case3 p ps c cs ih =>
    rw [Bool.and_eq_true] at starts
    rw [List.any_cons, Bool.or_eq_false_iff] at plain
    refine inline_cons.mpr ⟨?_, ih plain.2 starts.2⟩
    have first := starts.1
    split at first
    · exact isBreak_of_class (p := Char.isDigit) (by decide) (by decide) first
    · rw [beq_iff_eq.mp first]
      exact plain.1

theorem inline_fraction : Inline (fractionLength cs) cs := by
  rw [fractionLength.eq_def]
  split
  · rename_i c cs
    split
    · rename_i digit
      refine inline_cons.mpr ⟨by decide, inline_cons.mpr ⟨?_, ?_⟩⟩
      · exact isBreak_of_class (by decide) (by decide) digit
      · exact inline_runLength (by decide) (by decide)
    · exact inline_zero
  · exact inline_zero

theorem inline_zone : Inline (zoneLength cs) cs := by
  rw [zoneLength.eq_def]
  split
  · exact inline_cons.mpr ⟨by decide, inline_zero⟩
  · rename_i c cs _
    split
    · rename_i found
      rw [Bool.and_eq_true, Bool.or_eq_true, beq_iff_eq, beq_iff_eq] at found
      refine inline_cons.mpr ⟨?_, inline_startsWith (by decide) found.2⟩
      rcases found.1 with rfl | rfl <;> decide
    · exact inline_zero
  · exact inline_zero

theorem inline_time : Inline (timeLength cs) cs := by
  rw [timeLength]
  split
  · rename_i found
    have clock : Inline 9 cs := inline_startsWith (by decide) found
    exact (clock.add inline_fraction).add inline_zone
  · exact inline_zero

theorem inline_number : Inline (numberExtent c cs).2 cs := by
  rw [numberExtent]
  split
  · rename_i found
    have date : Inline 10 (c :: cs) := inline_startsWith (by decide) found
    exact (inline_cons.mp date).2.add inline_time
  · exact (inline_runLength (by decide) (by decide)).add inline_fraction

end Inline

section Long

theorem blockLength_le (cs : List Char) : blockLength cs ≤ cs.length := by
  fun_induction blockLength cs with
  | case1 => exact Nat.le_refl 0
  | case2 => simp
  | case3 c cs _ ih => exact Nat.succ_le_succ ih

/-- A block comment ends with its closing sign or with the text. -/
theorem blockLength_ends (cs : List Char) :
    (cs.take (blockLength cs)).getLast? = some '/' ∨ cs.drop (blockLength cs) = [] := by
  fun_induction blockLength cs with
  | case1 => exact .inr rfl
  | case2 cs => exact .inl rfl
  | case3 c cs _ ih =>
    rcases ih with closed | exhausted
    · refine .inl ?_
      rw [List.take_succ_cons, List.getLast?_cons, closed]
      rfl
    · exact .inr exhausted

theorem stringLength_le (cs : List Char) : stringLength cs ≤ cs.length := by
  fun_induction stringLength cs with
  | case1 => exact Nat.le_refl 0
  | case2 => exact Nat.le_refl 1
  | case3 _ cs ih => exact Nat.add_le_add_right ih 2
  | case4 => simp
  | case5 => exact Nat.zero_le _
  | case6 c cs _ _ _ _ ih => exact Nat.succ_le_succ ih

end Long

section Kinds

def spanningKinds : List TokenKind := [.whitespace, .comment, .string, .eof]

theorem number_kind : (numberExtent c cs).1 ∉ spanningKinds := by
  rw [numberExtent]
  split
  · by_cases time : timeLength (cs.drop 9) = 0 <;> simp [time, spanningKinds]
  · by_cases fraction : fractionLength (cs.drop (runLength Char.isDigit cs)) = 0 <;>
      simp [fraction, spanningKinds]

theorem word_kind (word : List Char) : wordKind word ∉ spanningKinds := by
  rw [wordKind, TokenKind.ofWord?]
  cases found : TokenKind.keywords.find? (sameFold ·.name (String.ofList word)) with
  | none => decide
  | some k =>
    have reserved : ∀ k ∈ TokenKind.keywords, k ∉ spanningKinds := by decide
    exact reserved k (List.mem_of_find?_eq_some found)

theorem sign_kind (c : Char) : signKind c ∉ spanningKinds := by
  rw [signKind.eq_def]
  split <;> decide

end Kinds

/-- How a token goes on, by its kind and the number of its further characters. -/
inductive Scan (c : Char) (cs : List Char) : TokenKind → Nat → Prop where
  | blanks (blank : isBlank c = true) : Scan c cs .whitespace (runLength isBlank cs)
  | lineComment (solid : isBlank c = false) : Scan c cs .comment (runLength (!isBreak ·) cs)
  | blockComment {rest : List Char} (solid : isBlank c = false) (opened : cs = '*' :: rest) :
      Scan c cs .comment (blockLength rest + 1)
  | string (solid : isBlank c = false) : Scan c cs .string (stringLength cs)
  | inline {kind : TokenKind} {n : Nat} (solid : isBlank c = false)
      (other : kind ∉ spanningKinds) (fits : Inline n cs) : Scan c cs kind n

theorem scan_extent (c : Char) (cs : List Char) : Scan c cs (extent c cs).1 (extent c cs).2 := by
  rw [extent]
  split
  · exact .blanks ‹_›
  have solid : isBlank c = false := Bool.eq_false_iff.mpr ‹_›
  split
  · exact .lineComment solid
  split
  · rename_i opened
    rw [Bool.and_eq_true, beq_iff_eq, beq_iff_eq] at opened
    obtain ⟨rest, rfl⟩ := List.head?_eq_some_iff.mp opened.2
    exact .blockComment solid rfl
  split
  · exact .string solid
  split
  · exact .inline solid number_kind inline_number
  split
  · exact .inline solid (word_kind _) (inline_runLength (by decide) (by decide))
  split
  · split
    · exact .inline solid (by simp [spanningKinds]) (inline_runLength (by decide) (by decide))
    · exact .inline solid (by decide) inline_zero
  split
  · rename_i found
    rw [Bool.and_eq_true, beq_iff_eq, beq_iff_eq] at found
    obtain ⟨rest, rfl⟩ := List.head?_eq_some_iff.mp found.2
    exact .inline solid (by decide) (inline_cons.mpr ⟨by decide, inline_zero⟩)
  · exact .inline solid (sign_kind c) inline_zero

namespace Scan

variable {kind : TokenKind}

theorem le (scan : Scan c cs kind n) : n ≤ cs.length := by
  cases scan with
  | blanks => exact (List.takeWhile_prefix _).length_le
  | lineComment => exact (List.takeWhile_prefix _).length_le
  | @blockComment rest _ opened =>
    rw [opened]
    exact Nat.succ_le_succ (blockLength_le rest)
  | string => exact stringLength_le cs
  | inline _ _ fits => exact fits.1

theorem kind_ne_eof (scan : Scan c cs kind n) : kind ≠ .eof := by
  rintro rfl
  cases scan with
  | inline _ other _ => exact other (by decide)

theorem whitespace_iff (scan : Scan c cs kind n) : kind = .whitespace ↔ isBlank c = true := by
  cases scan with
  | blanks blank => exact iff_of_true rfl blank
  | lineComment solid => simp [solid]
  | blockComment solid => simp [solid]
  | string solid => simp [solid]
  | inline solid other =>
    refine iff_of_false ?_ (by simp [solid])
    rintro rfl
    exact other (by decide)

theorem blank (scan : Scan c cs .whitespace n) : ∀ d ∈ c :: cs.take n, isBlank d = true := by
  cases scan with
  | blanks blank =>
    rw [take_runLength]
    exact List.forall_mem_cons.mpr ⟨blank, fun d member => List.mem_takeWhile_imp member⟩
  | inline _ other _ => exact absurd (by decide) other

theorem solid_after (scan : Scan c cs .whitespace n) {d : Char}
    (next : (cs.drop n).head? = some d) : isBlank d = false := by
  cases scan with
  | blanks =>
    have after := List.head?_dropWhile_not isBlank cs
    rw [← drop_runLength, next] at after
    exact after
  | inline _ other _ => exact absurd (by decide) other

/-- A token that is neither hidden nor a string stands on one line. -/
theorem unbroken (scan : Scan c cs kind n) (shown : kind.isHidden = false)
    (other : kind ≠ .string) : (c :: cs.take n).any isBreak = false := by
  cases scan with
  | blanks => exact absurd shown (by decide)
  | lineComment => exact absurd shown (by decide)
  | blockComment => exact absurd shown (by decide)
  | string => exact absurd rfl other
  | inline solid _ fits => exact (inline_cons.mpr ⟨isBreak_of_solid solid, fits⟩).2

/-- Only behind a string is a pair torn. -/
theorem string_of_torn (scan : Scan c cs kind n) (torn : Torn (c :: cs.take n) (cs.drop n)) :
    kind = .string := by
  have broken : (c :: cs.take n).any isBreak = true :=
    List.any_eq_true.mpr ⟨_, List.mem_of_getLast? torn.1, rfl⟩
  cases scan with
  | blanks blank =>
    -- The other half is a blank, so it would belong to the token too.
    have after := (Scan.blanks blank).solid_after torn.2
    exact absurd after (by decide)
  | lineComment solid =>
    have plain : Inline (runLength (!isBreak ·) cs) cs := inline_runLength (by decide) (by decide)
    have whole := (inline_cons.mpr ⟨isBreak_of_solid solid, plain⟩).2
    exact absurd broken (by simpa using whole)
  | @blockComment rest solid opened =>
    rw [opened, List.take_succ_cons, List.drop_succ_cons] at torn
    rcases blockLength_ends rest with closed | exhausted
    · have last := torn.1
      rw [List.getLast?_cons, List.getLast?_cons, closed] at last
      exact absurd last (by simp)
    · exact absurd torn.2 (by simp [exhausted])
  | string => rfl
  | inline solid _ fits =>
    have whole := (inline_cons.mpr ⟨isBreak_of_solid solid, fits⟩).2
    exact absurd broken (by simpa using whole)

end Scan

end SoqlAssist.Lexer
