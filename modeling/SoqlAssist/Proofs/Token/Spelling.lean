import Mathlib
import SoqlAssist.Catalog.Operator
import SoqlAssist.Proofs.Token.Stream
import SoqlAssist.Query.Analysis

/-!
Texts up to case. No letter turns blank or stops continuing a word when it is made small, so the
words of a text, the way tokens are joined and the operator that a text spells depend only on the
text in small letters. A token whose kind has one spelling is written in that spelling, up to case,
and a word has no other characters than those that continue a name.
-/
namespace SoqlAssist

namespace Text

section Fold

variable {cs : List Char} {s s' : String}

/-- A class of characters that has the capital letters where it has the small ones. -/
theorem class_toLower {p : Char → Bool}
    (letters : ∀ n < 26, p (Char.ofNat (65 + n + 32)) = p (Char.ofNat (65 + n))) (c : Char) :
    p c.toLower = p c := by
  by_cases capital : c.isUpper
  · have range : 65 ≤ c.toNat ∧ c.toNat ≤ 90 := by
      simpa [Char.isUpper, UInt32.le_iff_toNat_le] using capital
    have place : 65 + (c.toNat - 65) = c.toNat := by omega
    have same := letters (c.toNat - 65) (by omega)
    rwa [place, Char.ofNat_toNat, ← Char.toLower_eq_of_isUpper capital] at same
  · rw [Char.toLower_eq_of_not_isUpper capital]

theorem isBlank_toLower (c : Char) : isBlank c.toLower = isBlank c :=
  class_toLower (by decide) c

theorem isWordChar_toLower (c : Char) : isWordChar c.toLower = isWordChar c :=
  class_toLower (by decide) c

theorem wordsOf_map_toLower (cs : List Char) :
    wordsOf (cs.map Char.toLower) = (wordsOf cs).map (·.map Char.toLower) := by
  have same : (fun c => !isBlank c) ∘ Char.toLower = fun c => !isBlank c :=
    funext fun c => by rw [Function.comp, isBlank_toLower]
  fun_induction wordsOf cs with
  | case1 => rw [List.map_nil, wordsOf, List.map_nil]
  | case2 c cs blank ih => rw [List.map_cons, wordsOf, isBlank_toLower, if_pos blank, ih]
  | case3 c cs solid ih =>
    rw [List.map_cons, wordsOf, isBlank_toLower, if_neg solid, List.takeWhile_map,
      List.dropWhile_map, same, ih, List.map_cons, List.map_cons]

theorem lower_append (s s' : String) : lower (s ++ s') = lower s ++ lower s' := by
  rw [lower, String.toList_append, List.map_append, lower, lower]

theorem lower_spaced (words : List (List Char)) :
    ([' '].intercalate words).map Char.toLower =
      [' '].intercalate (words.map (·.map Char.toLower)) := by
  induction words with
  | nil => rfl
  | cons word rest ih =>
    cases rest with
    | nil => simp
    | cons next rest =>
      rw [List.intercalate_cons_cons, List.map_append, List.map_append, ih]
      exact List.intercalate_cons_cons.symm

theorem lower_squeeze (s : String) : lower (squeeze s) = [' '].intercalate (wordsOf (lower s)) := by
  rw [lower, squeeze, String.toList_ofList, lower_spaced, lower, wordsOf_map_toLower]

theorem sameFold_congr (w : String) (same : lower s = lower s') : sameFold w s = sameFold w s' := by
  rw [sameFold, sameFold, same]

end Fold

end Text

open Text

/-- The operator that a text spells does not depend on the case of its letters. -/
theorem QueryOperator.ofText_congr {s s' : String} (same : lower s = lower s') :
    ofText? s = ofText? s' := by
  have squeezed : lower (squeeze s) = lower (squeeze s') := by
    rw [lower_squeeze, lower_squeeze, same]
  simp only [ofText?, sameFold_congr _ squeezed]

theorem Token.endsWithWordChar_congr {t u : Token} (same : lower t.text = lower u.text) :
    t.endsWithWordChar = u.endsWithWordChar := by
  have folded (t : Token) : t.endsWithWordChar = (lower t.text).getLast?.any isWordChar := by
    rw [endsWithWordChar, lower, List.getLast?_map]
    cases t.text.toList.getLast? with
    | none => rfl
    | some c => exact (isWordChar_toLower c).symm
  rw [folded, folded, same]

/-- Tokens that are alike up to case are joined alike. -/
theorem Analysis.lower_joinWords {ts us : List Token} (b : Bool)
    (same : ts.map (lower ·.text) = us.map (lower ·.text)) :
    lower (joinWords b ts) = lower (joinWords b us) := by
  induction ts generalizing us b with
  | nil =>
    obtain rfl := List.map_eq_nil_iff.mp same.symm
    rfl
  | cons t ts ih =>
    cases us with
    | nil => simp at same
    | cons u us =>
      rw [List.map_cons, List.map_cons, List.cons.injEq] at same
      simp only [joinWords, lower_append, same.1, Token.endsWithWordChar_congr same.1, ih _ same.2]

theorem TokenKind.spelling_keyword {k : TokenKind} (reserved : k ∈ keywords) :
    k.spelling? = some k.name :=
  if_pos reserved

theorem TokenKind.lower_spelling {k : TokenKind} {w : String} (spelled : k.spelling? = some w) :
    lower w = w.toList := by
  cases k <;> cases spelled <;> rfl

namespace Lexer

variable {c : Char} {cs : List Char} {w : String}

/-- A token of this kind and extent that has one spelling is written so, up to case. -/
def Spelled (c : Char) (cs : List Char) (e : TokenKind × Nat) : Prop :=
  ∀ w, e.1.spelling? = some w → (c :: cs.take e.2).map Char.toLower = w.toList

theorem spelled_of_none {e : TokenKind × Nat} (varied : e.1.spelling? = none) : Spelled c cs e := by
  intro w spelled
  rw [varied] at spelled
  cases spelled

theorem number_spelling : (numberExtent c cs).1.spelling? = none := by
  rw [numberExtent]
  split
  · by_cases time : timeLength (cs.drop 9) = 0 <;> simp only [time, if_true, if_false] <;> rfl
  · by_cases fraction : fractionLength (cs.drop (runLength Char.isDigit cs)) = 0 <;>
      simp only [fraction, if_true, if_false] <;> rfl

theorem word_spelling {word : List Char} (spelled : (wordKind word).spelling? = some w) :
    word.map Char.toLower = w.toList := by
  rw [wordKind, TokenKind.ofWord?] at spelled
  cases found : TokenKind.keywords.find? (sameFold ·.name (String.ofList word)) with
  | none =>
    rw [found] at spelled
    cases spelled
  | some k =>
    have reserved : k ∈ TokenKind.keywords := List.mem_of_find?_eq_some found
    have same := List.find?_some found
    rw [found, Option.getD_some] at spelled
    have small := TokenKind.lower_spelling spelled
    rw [TokenKind.spelling_keyword reserved, Option.some.injEq] at spelled
    rw [sameFold, beq_iff_eq, spelled, small, lower, String.toList_ofList] at same
    exact same.symm

theorem sign_spelling (spelled : (signKind c).spelling? = some w) :
    [c].map Char.toLower = w.toList := by
  rw [signKind.eq_def] at spelled
  split at spelled
  all_goals cases spelled
  all_goals decide

theorem spelled_extent (c : Char) (cs : List Char) : Spelled c cs (extent c cs) := by
  rw [extent]
  split
  · exact spelled_of_none rfl
  split
  · exact spelled_of_none rfl
  split
  · exact spelled_of_none rfl
  split
  · exact spelled_of_none rfl
  split
  · exact spelled_of_none number_spelling
  split
  · exact fun w spelled => word_spelling spelled
  split
  · rename_i colon
    split
    · exact spelled_of_none rfl
    · rintro w ⟨⟩
      rw [beq_iff_eq.mp colon]
      rfl
  split
  · rename_i unequal
    rw [Bool.and_eq_true, beq_iff_eq, beq_iff_eq, List.head?_eq_some_iff] at unequal
    obtain ⟨rfl, rest, rfl⟩ := unequal
    rintro w ⟨⟩
    rfl
  · exact fun w spelled => sign_spelling spelled

section Words

def wordKinds : List TokenKind := .identifier :: TokenKind.keywords

theorem number_not_word : (numberExtent c cs).1 ∉ wordKinds := by
  rw [numberExtent]
  split
  · by_cases time : timeLength (cs.drop 9) = 0 <;> simp only [time, if_true, if_false] <;> decide
  · by_cases fraction : fractionLength (cs.drop (runLength Char.isDigit cs)) = 0 <;>
      simp only [fraction, if_true, if_false] <;> decide

theorem sign_not_word (c : Char) : signKind c ∉ wordKinds := by
  rw [signKind.eq_def]
  split <;> decide

theorem isWordChar_of_start (start : isNameStart c = true) : isWordChar c = true := by
  rw [isNameStart, Bool.or_eq_true] at start
  rw [isWordChar, Char.isAlphanum, Bool.or_eq_true, Bool.or_eq_true]
  exact start.imp .inl id

/-- A token of this kind and extent that is a word has only characters that continue a name. -/
def Worded (c : Char) (cs : List Char) (e : TokenKind × Nat) : Prop :=
  e.1 ∈ wordKinds → ∀ d ∈ c :: cs.take e.2, isWordChar d = true

theorem worded_of_other {k : TokenKind} {n : Nat} (other : k ∉ wordKinds) : Worded c cs (k, n) :=
  fun word => absurd word other

theorem worded_extent (c : Char) (cs : List Char) : Worded c cs (extent c cs) := by
  rw [extent]
  split
  · exact worded_of_other (by decide)
  split
  · exact worded_of_other (by decide)
  split
  · exact worded_of_other (by decide)
  split
  · exact worded_of_other (by decide)
  split
  · exact worded_of_other number_not_word
  split
  · rename_i start
    intro _
    refine List.forall_mem_cons.mpr ⟨isWordChar_of_start start, ?_⟩
    rw [take_runLength]
    exact fun d member => List.mem_takeWhile_imp member
  split
  · split <;> exact worded_of_other (by decide)
  split
  · exact worded_of_other (by decide)
  · exact worded_of_other (sign_not_word c)

end Words

end Lexer

section Tokenize

variable {text w : String} {k : Nat} {t : Token} (found : (tokenize text)[k]? = some t)
include found

/-- A token is the end mark, or its kind and text are what its characters decide. -/
theorem tokenize_extent : t.kind = .eof ∨ ∃ c cs, t.kind = (Lexer.extent c cs).1 ∧
    t.text.toList = c :: cs.take (Lexer.extent c cs).2 := by
  obtain ⟨rest, lexed, _⟩ := tokenize_at found
  cases rest with
  | nil =>
    rw [Lexer.lexFrom] at lexed
    obtain ⟨rfl, -⟩ := List.cons.inj lexed
    exact .inl rfl
  | cons c rest =>
    rw [Lexer.lexFrom] at lexed
    obtain ⟨rfl, -⟩ := List.cons.inj lexed
    exact .inr ⟨c, rest, rfl, String.toList_ofList⟩

theorem tokenize_spelling (spelled : t.kind.spelling? = some w) : lower t.text = w.toList := by
  rcases tokenize_extent found with ended | ⟨c, cs, kind, chars⟩
  · rw [ended] at spelled
    cases spelled
  · rw [lower, chars]
    exact Lexer.spelled_extent c cs w (kind ▸ spelled)

/-- A name or a reserved word consists of characters that continue a name. -/
theorem tokenize_word (word : t.kind ∈ Lexer.wordKinds) :
    ∀ d ∈ t.text.toList, isWordChar d = true := by
  rcases tokenize_extent found with ended | ⟨c, cs, kind, chars⟩
  · rw [ended] at word
    exact absurd word (by decide)
  · rw [chars]
    exact Lexer.worded_extent c cs (kind ▸ word)

end Tokenize

end SoqlAssist
