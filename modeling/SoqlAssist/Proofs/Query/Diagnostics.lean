import SoqlAssist.Diagnostic
import SoqlAssist.Proofs.Query.Visibility
import SoqlAssist.Proofs.Token.Place
import SoqlAssist.Query.Cursor

/-!
The ranges of diagnostics. A diagnostic gives the columns of its token in characters, but a column
from an editor is read in UTF-16 units. The two agree up to the first character of two units that
has something behind it; and the end of a token is on the line of its start only if the token has no
line break.
-/
namespace SoqlAssist

open Text Parse Lexer

namespace Text

/-- The first `n` characters of a line are there and, the last of them apart, of one unit each. -/
def OneUnit (n : Nat) (line : List Char) : Prop :=
  n ≤ line.length ∧ ∀ c ∈ line.take (n - 1), units16 c = 1

theorem units16_cases (c : Char) : units16 c = 1 ∨ units16 c = 2 := by
  rw [units16]
  split
  · exact .inl rfl
  · exact .inr rfl

theorem oneUnit_cons {n : Nat} {c : Char} {cs : List Char} :
    OneUnit (n + 2) (c :: cs) ↔ units16 c = 1 ∧ OneUnit (n + 1) cs := by
  have longer : n + 2 ≤ cs.length + 1 ↔ n + 1 ≤ cs.length := by omega
  simp only [OneUnit, List.length_cons, Nat.add_sub_cancel, Nat.add_succ_sub_one,
    List.take_succ_cons, List.forall_mem_cons, longer]
  exact and_left_comm

theorem oneUnit_append {a b : List Char} :
    OneUnit a.length (a ++ b) ↔ ∀ c ∈ a.dropLast, units16 c = 1 := by
  rw [OneUnit, List.take_append_of_le_length (Nat.sub_le _ _), List.dropLast_eq_take,
    List.length_append]
  exact and_iff_right (Nat.le_add_right _ _)

end Text

namespace Cursor

theorem charsFor_le (n : Nat) (cs : List Char) : charsFor n cs ≤ n := by
  induction cs generalizing n with
  | nil => cases n <;> simp [charsFor]
  | cons c cs ih =>
    cases n with
    | zero => simp [charsFor]
    | succ n =>
      have rest := ih (n + 1 - units16 c)
      rw [charsFor]
      · rcases units16_cases c with one | two <;> omega
      · simp

/-- Units are taken for as many characters exactly if the characters have one unit each. -/
theorem charsFor_eq_iff (n : Nat) (cs : List Char) : charsFor n cs = n ↔ OneUnit n cs := by
  induction cs generalizing n with
  | nil => cases n <;> simp [charsFor, OneUnit]
  | cons c cs ih =>
    match n with
    | 0 => simp [charsFor, OneUnit]
    | 1 =>
      have rest : 1 - units16 c = 0 := by
        rcases units16_cases c with one | two <;> omega
      simp [charsFor, OneUnit, rest]
    | n + 2 =>
      rw [charsFor, oneUnit_cons]
      · rcases units16_cases c with one | two
        · rw [one, Nat.add_sub_cancel (n + 1) 1, ← ih]
          omega
        · have short := charsFor_le n cs
          rw [two, Nat.add_sub_cancel]
          omega
      · simp

theorem ofEditor_eq_iff (text : String) (line n : Nat) :
    ofEditor text line n = ⟨line + 1, n + 1⟩ ↔
      ∀ content ∈ line? text.toList line, OneUnit n content := by
  rw [ofEditor]
  cases line? text.toList line with
  | none => simp
  | some content => simp [charsFor_eq_iff]

end Cursor

section Errors

variable {text : String} {e : SyntaxError} {t : Token} {k : Nat}

theorem mem_of_mem_firstPerPosition {α : Type} {found : List (Nat × α)} {last : Option Nat}
    {x : Nat × α} (member : x ∈ firstPerPosition last found) : x ∈ found := by
  induction found generalizing last with
  | nil => exact absurd member List.not_mem_nil
  | cons y found ih =>
    obtain ⟨i, a⟩ := y
    rw [firstPerPosition] at member
    split at member
    · exact List.mem_cons_of_mem _ (ih member)
    · rcases List.mem_cons.mp member with rfl | later
      · exact List.mem_cons_self
      · exact List.mem_cons_of_mem _ (ih later)

/-- The end of a stream that comes from a text has a mark. -/
theorem mark_tokenize (text : String) :
    ∃ m, (Outline.ofTokens (tokenize text)).mark = some m := by
  obtain ⟨front, last, split, _, ending, _⟩ := tokenize_concat text
  have found : (tokenize text)[front.length]? = some last := by
    rw [← Array.getElem?_toList, split]
    simp
  have shown : last.isHidden = false := by
    rw [Token.isHidden, tokenize_channel found, ending.1]
    rfl
  have seen : (front.length, TokenKind.eof) ∈ visible 0 (tokenize text).toList := by
    apply mem_visible_iff.mpr
    exact ⟨⟨last, found, shown⟩, by rw [TokenStream.kindAt, found]; exact ending.1⟩
  obtain ⟨x, first⟩ := Option.isSome_iff_exists.mp
    (List.find?_isSome.mpr ⟨_, seen, by simp⟩ :
      ((visible 0 (tokenize text).toList).find? (·.2 == .eof)).isSome)
  exact ⟨x.1, by simp [Outline.ofTokens, first]⟩

theorem text_of_eof (found : (tokenize text)[k]? = some t) (last : t.kind = .eof) :
    t.text = "" := by
  obtain ⟨rest, lexed, _⟩ := tokenize_at found
  obtain ⟨_, _, _, _, ⟨_, _, empty, _⟩ | ⟨_, _, _, _, scan, _, _⟩⟩ := lexFrom_cons lexed.symm
  · exact empty
  · exact absurd last scan.kind_ne_eof

/-- An error is at a token that the grammar sees, with the place and the length of the token. -/
theorem error_token (member : e ∈ (parse text).errors) :
    ∃ t, (tokenize text)[e.position]? = some t ∧ t.isHidden = false ∧ e.line = t.line ∧
      e.column = t.column ∧ e.length = t.text.toList.length := by
  rw [parse, errors_parseTokens] at member
  obtain ⟨⟨i, p⟩, problem, rfl⟩ := List.mem_map.mp member
  have placed := place_problem (mem_of_mem_firstPerPosition problem)
  obtain ⟨m, mark⟩ := mark_tokenize text
  have read : i ∈ (Outline.ofTokens (tokenize text)).positions := by
    rcases placed with taken | last
    · exact List.mem_append_left _ taken
    · have ending : (Outline.ofTokens (tokenize text)).ending = m := by
        have known : (Outline.ofTokens (tokenize text)).ending =
            (Outline.ofTokens (tokenize text)).mark.getD (tokenize text).size := rfl
        rw [known, mark]
        rfl
      exact List.mem_append_right _ (by simp [mark, last, ending])
  obtain ⟨t, found, shown⟩ := (mem_positions.mp read).1
  refine ⟨t, ?_⟩
  simp only [describe, found]
  split
  · rename_i last
    exact ⟨found, shown, rfl, rfl, by rw [text_of_eof found last]; rfl⟩
  · exact ⟨found, shown, rfl, rfl, String.length_toList.symm⟩

/-- The text around a token and the token's place in it. Only a blank can be torn from what is
before it. -/
theorem token_split (found : (tokenize text)[k]? = some t) :
    let texts := (tokenize text).textsBefore k
    ∃ after, text.toList = texts.flatten ++ (t.text.toList ++ after) ∧
      t.column = (lastLine texts.flatten).length ∧
      t.line = 1 + countBreaks texts.flatten + tornPairs texts ∧
      (t.isHidden = false → ¬ Torn texts.flatten (t.text.toList ++ after)) := by
  intro texts
  obtain ⟨lt, here⟩ := List.getElem?_eq_some_iff.mp (Array.getElem?_toList.trans found)
  have cut : lexFrom .origin 0 text.toList =
      (tokenize text).toList.take k ++ t :: (tokenize text).toList.drop (k + 1) := by
    rw [← here, ← List.drop_eq_getElem_cons lt, List.take_append_drop, tokenize]
  obtain ⟨rest, whole, lexed, filled⟩ := lexFrom_append cut (by simp)
  have filled : ∀ x ∈ texts, x ≠ [] := by
    intro x member
    obtain ⟨u, listed, rfl⟩ := List.mem_map.mp member
    exact (filled u listed).2
  have place := tokenize_place found
  rw [Place.foldl_advance .origin filled, Place.advance_eq, Place.mk.injEq] at place
  obtain ⟨line, column⟩ := place
  have width : t.column = (lastLine texts.flatten).length := by
    rw [column]
    simp [Place.origin, texts]
  have before : ((tokenize text).toList.take k).flatMap (·.text.toList) = texts.flatten := rfl
  rw [before] at whole
  obtain ⟨_, _, _, channel, ⟨rfl, _, empty, _⟩ | ⟨c, left, n, rfl, scan, chars, _⟩⟩ :=
    lexFrom_cons lexed.symm
  · refine ⟨[], by rw [whole, empty]; rfl, width, line, fun _ => ?_⟩
    rw [empty]
    simp [Torn]
  · refine ⟨left.drop n, ?_, width, line, ?_⟩
    · rw [whole, chars, List.cons_append, List.take_append_drop]
    · rintro shown ⟨_, feed⟩
      rw [chars] at feed
      obtain rfl : c = '\n' := Option.some.inj feed
      have blank := scan.whitespace_iff.mpr (by decide)
      rw [Token.isHidden, channel, blank] at shown
      exact absurd shown (by decide)

/-- The line of an error, where it is right, begins with what is before the token on it. -/
theorem error_line (member : e ∈ (parse text).errors) :
    let texts := (tokenize text).textsBefore e.position
    ∃ t after, (tokenize text)[e.position]? = some t ∧
      e.column = (lastLine texts.flatten).length ∧ e.length = t.text.toList.length ∧
      (tornPairs texts = 0 → line? text.toList (e.line - 1) =
        some (lastLine texts.flatten ++ (t.text.toList ++ after).takeWhile (!isBreak ·))) := by
  intro texts
  obtain ⟨t, found, shown, line, column, length⟩ := error_token member
  obtain ⟨after, whole, width, row, apart⟩ := token_split found
  refine ⟨t, after, found, column.trans width, length, ?_⟩
  intro none
  have number : e.line - 1 = countBreaks texts.flatten := by
    rw [line, row, none, Nat.add_zero, Nat.add_sub_cancel_left]
  rw [number, whole]
  exact line_countBreaks (apart shown)

theorem line_pos (member : e ∈ (parse text).errors) : 0 < e.line := by
  obtain ⟨t, found, _, line, _⟩ := error_token member
  obtain ⟨_, _, _, row, _⟩ := token_split found
  omega

end Errors

def EditorPosition.cursor (p : EditorPosition) (text : String) : Cursor :=
  Cursor.ofEditor text p.line.toNat p.character.toNat

section Ranges

variable {text : String} {e : SyntaxError} {t : Token}

theorem cursor_eq_iff {p : EditorPosition} {line n : Nat} (positive : 0 < line)
    (row : p.line.toNat = line - 1) (units : p.character.toNat = n) :
    p.cursor text = ⟨line, n + 1⟩ ↔
      ∀ content ∈ line? text.toList (line - 1), OneUnit n content := by
  rw [EditorPosition.cursor, row, units, ← Cursor.ofEditor_eq_iff, Nat.sub_add_cancel positive]

theorem toNat_toUInt32 {n : Nat} (fits : n < 2 ^ 32) : n.toUInt32.toNat = n :=
  UInt32.toNat_ofNat_of_lt' fits

/-- A word is read up to its end exactly if it has no break and the characters up to there have one
unit each, the last one apart. -/
theorem oneUnit_word (a w rest : List Char) :
    OneUnit (a.length + w.length) (a ++ (w ++ rest).takeWhile (!isBreak ·)) ↔
      w.any isBreak = false ∧ ∀ c ∈ (a ++ w).dropLast, units16 c = 1 := by
  cases broken : w.any isBreak with
  | false =>
    have plain : ∀ c ∈ w, (!isBreak c) = true := by
      intro c member
      simpa using List.any_eq_false.mp broken c member
    rw [List.takeWhile_append_of_pos plain, ← List.append_assoc, ← List.length_append,
      oneUnit_append]
    simp
  | true =>
    refine iff_of_false ?_ (by simp)
    rintro ⟨enough, _⟩
    obtain ⟨c, member, found⟩ := List.any_eq_true.mp broken
    rw [List.length_append, Nat.add_le_add_iff_left] at enough
    have inside : w <+: (w ++ rest).takeWhile (!isBreak ·) :=
      List.prefix_of_prefix_length_le (List.prefix_append w rest) (List.takeWhile_prefix _) enough
    have plain := List.all_eq_true.mp List.all_takeWhile c (inside.subset member)
    simp [found] at plain

section Fits

variable (member : e ∈ (parse text).errors) (lineFits : e.line ≤ 2 ^ 32)
  (columnFits : e.column + e.length < 2 ^ 32)
include member lineFits columnFits

theorem start_cursor_iff :
    (Diagnostic.ofSyntaxError e).range.start.cursor text = ⟨e.line, e.column + 1⟩ ↔
      ∀ content ∈ line? text.toList (e.line - 1), OneUnit e.column content := by
  have positive := line_pos member
  exact cursor_eq_iff positive (toNat_toUInt32 (by omega)) (toNat_toUInt32 (by omega))

theorem stop_cursor_iff :
    (Diagnostic.ofSyntaxError e).range.stop.cursor text = ⟨e.line, e.column + e.length + 1⟩ ↔
      ∀ content ∈ line? text.toList (e.line - 1), OneUnit (e.column + e.length) content := by
  have positive := line_pos member
  apply cursor_eq_iff positive (toNat_toUInt32 (by omega))
  show (e.column.toUInt32 + e.length.toUInt32).toNat = e.column + e.length
  rw [UInt32.toNat_add, toNat_toUInt32 (by omega), toNat_toUInt32 (by omega)]
  exact Nat.mod_eq_of_lt columnFits

end Fits

end Ranges

/-- The range of a diagnostic, read back as an editor's positions are read, is that of its token
exactly if the characters of the line up to there have one unit each, the last one apart, and the
line is that long. Where no pair is torn before the token, this is about the text before it and the
token itself. -/
theorem diagnostic_range_iff (text : String) (i : Nat) (e : SyntaxError)
    (found : (parse (Document.ofText text).padded).errors[i]? = some e)
    (lineFits : e.line ≤ 2 ^ 32) (columnFits : e.column + e.length < 2 ^ 32) :
    let source := (Document.ofText text).padded
    let texts := (tokenize source).textsBefore e.position
    ∃ d t, (Diagnostic.ofText text)[i]? = some d ∧ (tokenize source)[e.position]? = some t ∧
      (d.range.start.cursor source = ⟨e.line, e.column + 1⟩ ↔
        ∀ content ∈ line? source.toList (e.line - 1), OneUnit e.column content) ∧
      (d.range.stop.cursor source = ⟨e.line, e.column + e.length + 1⟩ ↔
        ∀ content ∈ line? source.toList (e.line - 1), OneUnit (e.column + e.length) content) ∧
      (tornPairs texts = 0 →
        (d.range.start.cursor source = ⟨e.line, e.column + 1⟩ ↔
          ∀ c ∈ (lastLine texts.flatten).dropLast, units16 c = 1) ∧
        (d.range.stop.cursor source = ⟨e.line, e.column + e.length + 1⟩ ↔
          t.text.toList.any isBreak = false ∧
            ∀ c ∈ (lastLine texts.flatten ++ t.text.toList).dropLast, units16 c = 1)) := by
  intro source texts
  have member : e ∈ (parse source).errors := List.mem_of_getElem? found
  obtain ⟨t, after, token, column, length, content⟩ := error_line member
  have start := start_cursor_iff member lineFits columnFits
  have stop := stop_cursor_iff member lineFits columnFits
  refine ⟨Diagnostic.ofSyntaxError e, t, ?_, token, start, stop, fun whole => ?_⟩
  · rw [Diagnostic.ofText, List.getElem?_map, found]
    rfl
  · rw [start, stop, content whole, length, column]
    simp only [Option.mem_some_iff, forall_eq']
    exact ⟨oneUnit_append, oneUnit_word _ _ _⟩

/-- A string in the place of an object, behind a header, is read back as it was given. -/
theorem diagnostic_range_behind_header :
    let text := "// é\r\nSELECT Id FROM '☃'"
    let source := (Document.ofText text).padded
    ∃ e d, (parse source).errors[0]? = some e ∧ (Diagnostic.ofText text)[0]? = some d ∧
      (e.line, e.column, e.length) = (2, 15, 3) ∧
      d.range.start.cursor source = ⟨2, 16⟩ ∧ d.range.stop.cursor source = ⟨2, 19⟩ := by
  have found : (parse (Document.ofText "// é\r\nSELECT Id FROM '☃'").padded).errors[0]? =
      some ⟨"expected object name, found ''☃''", 7, 2, 15, 3⟩ := by cbv
  have line : line? (Document.ofText "// é\r\nSELECT Id FROM '☃'").padded.toList 1 =
      some "SELECT Id FROM '☃'".toList := by cbv
  obtain ⟨d, t, listed, _, start, stop, _⟩ :=
    diagnostic_range_iff "// é\r\nSELECT Id FROM '☃'" 0 _ found (by decide) (by decide)
  refine ⟨_, d, found, listed, rfl, start.mpr ?_, stop.mpr ?_⟩
  · intro content member
    obtain rfl := Option.some.inj (line.symm.trans member)
    simp [OneUnit, units16]
  · intro content member
    obtain rfl := Option.some.inj (line.symm.trans member)
    simp [OneUnit, units16]

/-- Behind a character of two units both ends are read one column too early. -/
theorem diagnostic_range_wide :
    let text := "SELECT Id FROM Account WHERE Name = '😀' x"
    let source := (Document.ofText text).padded
    ∃ e d, (parse source).errors[0]? = some e ∧ (Diagnostic.ofText text)[0]? = some d ∧
      (e.line, e.column, e.length) = (1, 40, 1) ∧
      d.range.start.cursor source = ⟨1, 40⟩ ∧ d.range.stop.cursor source = ⟨1, 41⟩ := by
  refine ⟨⟨"unexpected input after query, found 'x'", 16, 1, 40, 1⟩,
    ⟨"unexpected input after query, found 'x'", 1, ⟨⟨0, 40⟩, ⟨0, 41⟩⟩, some .syntaxError⟩,
    by cbv, by cbv, rfl, by cbv, by cbv⟩

end SoqlAssist
