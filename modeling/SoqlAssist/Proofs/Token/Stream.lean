import Mathlib
import SoqlAssist.Proofs.Token.Extent

/-!
The token stream of a text. Wherever a stream is cut, what follows is the stream of the rest of the
text, at the place that the tokens before lead to; so what is true of the first token or of the
first two is true of every token and of every two neighbours. Nothing of the text is lost.
-/
namespace SoqlAssist

open Text

namespace Lexer

variable {place : Place} {index : Nat} {cs : List Char} {t : Token} {ts front back : List Token}

/-- The first token: the end, or what its characters decide, with the stream of the rest behind. -/
theorem lexFrom_cons (lexed : lexFrom place index cs = t :: ts) :
    t.index = index ∧ t.line = place.line ∧ t.column = place.column ∧
      t.channel = Channel.ofKind t.kind ∧
      (cs = [] ∧ t.kind = .eof ∧ t.text = "" ∧ ts = [] ∨
        ∃ c rest n, cs = c :: rest ∧ Scan c rest t.kind n ∧ t.text.toList = c :: rest.take n ∧
          ts = lexFrom (place.advance t.text.toList) (index + 1) (rest.drop n)) := by
  cases cs with
  | nil =>
    rw [lexFrom] at lexed
    obtain ⟨rfl, rfl⟩ := List.cons.inj lexed
    exact ⟨rfl, rfl, rfl, rfl, .inl ⟨rfl, rfl, rfl, rfl⟩⟩
  | cons c rest =>
    have scan := scan_extent c rest
    rw [lexFrom] at lexed
    generalize extent c rest = e at scan lexed
    obtain ⟨rfl, rfl⟩ := List.cons.inj lexed
    refine ⟨rfl, rfl, rfl, rfl, .inr ⟨c, rest, e.2, rfl, scan, String.toList_ofList, ?_⟩⟩
    rw [String.toList_ofList]

theorem lexFrom_ne_nil : lexFrom place index cs ≠ [] := by
  cases cs <;> simp [lexFrom]

/-- Behind any tokens of a stream stands the stream of the rest of the text. -/
theorem lexFrom_append (lexed : lexFrom place index cs = front ++ back) (more : back ≠ []) :
    ∃ rest, cs = front.flatMap (·.text.toList) ++ rest ∧
      back = lexFrom ((front.map (·.text.toList)).foldl Place.advance place)
        (index + front.length) rest ∧
      ∀ t ∈ front, t.kind ≠ .eof ∧ t.text.toList ≠ [] := by
  induction front generalizing place index cs with
  | nil => exact ⟨cs, rfl, lexed.symm, fun t member => absurd member List.not_mem_nil⟩
  | cons t front ih =>
    obtain ⟨_, _, _, _, ⟨_, _, _, empty⟩ | ⟨c, rest, n, rfl, scan, text, tail⟩⟩ :=
      lexFrom_cons lexed
    · exact absurd (List.append_eq_nil_iff.mp empty).2 more
    · obtain ⟨rest', split, behind, filled⟩ := ih tail.symm
      refine ⟨rest', ?_, ?_, ?_⟩
      · rw [List.flatMap_cons, List.append_assoc, ← split, text, List.cons_append,
          List.take_append_drop]
      · rw [behind, List.map_cons, List.foldl_cons, List.length_cons, Nat.add_assoc,
          Nat.add_comm 1]
      · intro u member
        rcases List.mem_cons.mp member with rfl | later
        · exact ⟨scan.kind_ne_eof, by simp [text]⟩
        · exact filled u later

/-- No character that continues a name is blank. -/
theorem isBlank_of_word {c : Char} (word : isWordChar c = true) : isBlank c = false := by
  have codes : (48 ≤ c.toNat ∧ c.toNat ≤ 57) ∨ (65 ≤ c.toNat ∧ c.toNat ≤ 90) ∨ c.toNat = 95 ∨
      (97 ≤ c.toNat ∧ c.toNat ≤ 122) := by
    rw [isWordChar, Bool.or_eq_true, beq_iff_eq] at word
    rcases word with letter | rfl
    · have letter : ((65 ≤ c.toNat ∧ c.toNat ≤ 90) ∨ (97 ≤ c.toNat ∧ c.toNat ≤ 122)) ∨
          48 ≤ c.toNat ∧ c.toNat ≤ 57 := by
        simpa [Char.isAlphanum, Char.isAlpha, Char.isUpper, Char.isLower, Char.isDigit,
          UInt32.le_iff_toNat_le] using letter
      omega
    · decide
  simp only [isBlank, Bool.or_eq_false_iff, Bool.and_eq_false_iff, beq_eq_false_iff_ne,
    decide_eq_false_iff_not]
  omega

end Lexer

open Lexer

def TokenStream.textsBefore (tokens : TokenStream) (k : Nat) : List (List Char) :=
  (tokens.toList.take k).map (·.text.toList)

section Tokenize

variable {text : String} {k : Nat} {a b t : Token}

/-- A token with what is before it and what is behind it. -/
theorem tokenize_at (found : (tokenize text)[k]? = some t) :
    ∃ rest, t :: (tokenize text).toList.drop (k + 1) =
        lexFrom (((tokenize text).textsBefore k).foldl Place.advance .origin) k rest ∧
      ∀ u ∈ (tokenize text).toList.take k, u.kind ≠ .eof ∧ u.text.toList ≠ [] := by
  obtain ⟨lt, here⟩ := List.getElem?_eq_some_iff.mp (Array.getElem?_toList.trans found)
  have split : lexFrom .origin 0 text.toList =
      (tokenize text).toList.take k ++ t :: (tokenize text).toList.drop (k + 1) := by
    rw [← here, ← List.drop_eq_getElem_cons lt, List.take_append_drop, tokenize]
  obtain ⟨rest, _, behind, filled⟩ := lexFrom_append split (by simp)
  refine ⟨rest, ?_, filled⟩
  rw [behind, List.length_take, Nat.min_eq_left (Nat.le_of_lt lt), Nat.zero_add,
    TokenStream.textsBefore]

/-- Two neighbours: the first is not the end, and the second starts where the first stops. -/
theorem tokenize_pair (first : (tokenize text)[k]? = some a)
    (second : (tokenize text)[k + 1]? = some b) :
    ∃ c rest n, Scan c rest a.kind n ∧ a.text.toList = c :: rest.take n ∧
      b :: (tokenize text).toList.drop (k + 2) =
        lexFrom ((⟨a.line, a.column⟩ : Place).advance a.text.toList) (k + 1) (rest.drop n) := by
  obtain ⟨lt, here⟩ := List.getElem?_eq_some_iff.mp (Array.getElem?_toList.trans second)
  obtain ⟨rest, lexed, _⟩ := tokenize_at first
  obtain ⟨_, line, column, _, ⟨_, _, _, empty⟩ | ⟨c, rest, n, rfl, scan, chars, tail⟩⟩ :=
    lexFrom_cons lexed.symm
  · rw [List.drop_eq_getElem_cons lt] at empty
    exact absurd empty (by simp)
  · refine ⟨c, rest, n, scan, chars, ?_⟩
    rw [← here, ← List.drop_eq_getElem_cons lt, tail, line, column]

theorem tokenize_channel (found : (tokenize text)[k]? = some t) :
    t.channel = Channel.ofKind t.kind := by
  obtain ⟨rest, lexed, _⟩ := tokenize_at found
  exact (lexFrom_cons lexed.symm).2.2.2.1

/-- The stream ends with the end, and only there; the tokens before it are the whole text. -/
theorem tokenize_concat (text : String) : ∃ front last, (tokenize text).toList = front ++ [last] ∧
    text.toList = front.flatMap (·.text.toList) ∧ (last.kind = .eof ∧ last.text = "") ∧
      ∀ t ∈ front, t.kind ≠ .eof ∧ t.text ≠ "" := by
  rcases List.eq_nil_or_concat (tokenize text).toList with empty | ⟨front, last, split⟩
  · exact absurd empty lexFrom_ne_nil
  rw [List.concat_eq_append] at split
  obtain ⟨rest, whole, behind, filled⟩ := lexFrom_append split (by simp)
  obtain ⟨_, _, _, _, ⟨rfl, kind, empty, _⟩ | ⟨_, _, _, _, _, _, tail⟩⟩ :=
    lexFrom_cons behind.symm
  · rw [List.append_nil] at whole
    refine ⟨front, last, split, whole, ⟨kind, empty⟩, fun t member => ?_⟩
    obtain ⟨kind, chars⟩ := filled t member
    exact ⟨kind, fun empty => chars (by rw [empty]; rfl)⟩
  · exact absurd tail.symm lexFrom_ne_nil

theorem not_whitespace_pair (first : (tokenize text)[k]? = some a)
    (second : (tokenize text)[k + 1]? = some b) (blank : a.kind = .whitespace) :
    b.kind ≠ .whitespace := by
  obtain ⟨c, rest, n, scan, _, tail⟩ := tokenize_pair first second
  intro again
  obtain ⟨_, _, _, _, ⟨_, kind, _, _⟩ | ⟨d, rest', m, left, scan', _, _⟩⟩ :=
    lexFrom_cons tail.symm
  · exact absurd (again.symm.trans kind) (by simp)
  · rw [blank] at scan
    have solid := scan.solid_after (d := d) (by rw [left]; rfl)
    exact absurd (scan'.whitespace_iff.mp again) (by simp [solid])

/-- Blanks end with a blank, so no name goes on behind them. -/
theorem whitespace_ends (found : (tokenize text)[k]? = some t) (blank : t.kind = .whitespace) :
    t.endsWithWordChar = false := by
  obtain ⟨rest, lexed, _⟩ := tokenize_at found
  obtain ⟨_, _, _, _, ⟨_, last, _, _⟩ | ⟨c, rest, n, _, scan, chars, _⟩⟩ := lexFrom_cons lexed.symm
  · exact absurd (blank.symm.trans last) (by decide)
  · rw [blank] at scan
    rw [Token.endsWithWordChar, chars, Bool.eq_false_iff]
    intro continues
    obtain ⟨d, final, word⟩ := (Option.any_eq_true _ _).mp continues
    have solid := isBlank_of_word word
    rw [scan.blank d (List.mem_of_getLast? final)] at solid
    cases solid

theorem exists_next (found : (tokenize text)[k]? = some t) (more : t.kind ≠ .eof) :
    ∃ u, (tokenize text)[k + 1]? = some u := by
  obtain ⟨rest, lexed, _⟩ := tokenize_at found
  obtain ⟨_, _, _, _, ⟨_, last, _, _⟩ | ⟨_, _, _, _, _, _, tail⟩⟩ := lexFrom_cons lexed.symm
  · exact absurd last more
  · have within : k + 1 < (tokenize text).size := by
      by_contra beyond
      apply lexFrom_ne_nil
      rw [← tail]
      exact List.drop_eq_nil_of_le (Nat.le_of_not_lt beyond)
    exact ⟨_, Array.getElem?_eq_getElem within⟩

end Tokenize

/-- Lexing loses nothing of a text, and its tokens are well formed: only the last is the end and
empty, each knows its position, blanks and comments are hidden and no blanks are split. -/
theorem tokenize_lossless (text : String) :
    String.join ((tokenize text).toList.map (·.text)) = text ∧
      (∃ front last, (tokenize text).toList = front ++ [last] ∧
        (last.kind = .eof ∧ last.text = "") ∧ ∀ t ∈ front, t.kind ≠ .eof ∧ t.text ≠ "") ∧
      (∀ (i : Nat) (t : Token), (tokenize text)[i]? = some t → t.index = i ∧
        (t.channel = .hidden ↔ t.kind = .whitespace ∨ t.kind = .comment)) ∧
      (∀ (i : Nat) (a b : Token), (tokenize text)[i]? = some a → (tokenize text)[i + 1]? = some b →
        ¬ (a.kind = .whitespace ∧ b.kind = .whitespace)) ∧
      ∀ c cs, (extent c cs).2 ≤ cs.length := by
  obtain ⟨front, last, split, whole, ending, filled⟩ := tokenize_concat text
  refine ⟨?_, ⟨front, last, split, ending, filled⟩, fun i t found => ⟨?_, ?_⟩, ?_, fun c cs => ?_⟩
  · rw [← String.toList_inj, String.toList_join, List.flatMap_map, split, List.flatMap_append, whole,
      List.flatMap_singleton, ending.2]
    exact List.append_nil _
  · obtain ⟨rest, lexed, _⟩ := tokenize_at found
    exact (lexFrom_cons lexed.symm).1
  · rw [tokenize_channel found]
    cases t.kind <;> simp [Channel.ofKind, TokenKind.isHidden]
  · rintro i a b first second ⟨blank, again⟩
    exact not_whitespace_pair first second blank again
  · exact (scan_extent c cs).le

/-- A comment that is never closed is the rest of the text, and hidden. -/
theorem tokenize_lossless_comment :
    ∃ t, (tokenize "x /*y")[2]? = some t ∧ t.text = "/*y" ∧ t.index = 2 ∧ t.channel = .hidden ∧
      String.join ((tokenize "x /*y").toList.map (·.text)) = "x /*y" := by
  have found : (tokenize "x /*y")[2]? = some ⟨.comment, "/*y", 2, 1, 2, .hidden⟩ := by cbv
  obtain ⟨whole, _, formed, _⟩ := tokenize_lossless "x /*y"
  obtain ⟨position, hidden⟩ := formed 2 _ found
  exact ⟨_, found, rfl, position, hidden.mpr (.inr rfl), whole⟩

end SoqlAssist
