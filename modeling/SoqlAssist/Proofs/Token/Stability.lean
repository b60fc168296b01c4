import SoqlAssist.Proofs.Token.Spelling

/-!
Where a token ends depends on the token alone. Each length that the lexer measures stays the same
when the text is cut behind it, and a pattern that the text does not start with is not found in a
shorter text; so a token is decided alike with and without the characters behind it, and the text
of a token is read as that token.
-/
namespace SoqlAssist

open Text

namespace Lexer

variable {c d : Char} {cs rest : List Char} {n : Nat}

section Settled

/-- A length that stays the same when the text is cut behind it. -/
def Settled (length : List Char → Nat) : Prop :=
  ∀ cs n, length cs ≤ n → length (cs.take n) = length cs

theorem cons_of_take (cut : cs.take n = d :: rest) : ∃ more, cs = d :: more := by
  refine ⟨rest ++ cs.drop n, ?_⟩
  rw [← List.cons_append, ← cut, List.take_append_drop]

theorem settled_runLength (p : Char → Bool) : Settled (runLength p) := by
  intro cs n enough
  rw [runLength, ← List.take_takeWhile, List.length_take]
  exact Nat.min_eq_right enough

theorem settled_blockLength : Settled blockLength := by
  intro cs
  fun_induction blockLength cs with
  | case1 => simp [blockLength]
  | case2 cs =>
    intro n enough
    obtain ⟨m, rfl⟩ := Nat.exists_eq_add_of_le' enough
    rfl
  | case3 c cs unclosed ih =>
    intro n enough
    obtain ⟨m, rfl⟩ := Nat.exists_eq_add_of_le' (Nat.le_of_add_left_le enough)
    -- A closing sign in the part would be one in the whole.
    have unclosed' : ∀ tail, c = '*' → cs.take m = '/' :: tail → False := by
      intro tail star cut
      obtain ⟨more, slash⟩ := cons_of_take cut
      exact unclosed more star slash
    rw [List.take_succ_cons, blockLength.eq_3 _ _ unclosed', ih m (Nat.le_of_succ_le_succ enough)]

theorem stringLength_cons (unescaped : c ≠ '\x5c') (cs : List Char) :
    stringLength (c :: cs) =
      if c == '\x27' then 1 else if isBreak c then 0 else stringLength cs + 1 :=
  stringLength.eq_4 c cs (fun escaped => absurd escaped unescaped)
    (fun _ _ escaped => absurd escaped unescaped)

/-- By the shapes that a string is read in: nothing, a backslash with what it takes, or another
character, which ends the string or goes on. -/
theorem settled_stringLength : Settled stringLength := by
  intro cs
  have unescaped {c : Char} {cs : List Char} (lone : c = '\x5c' → cs = [] → False)
      (taking : ∀ d ds, c = '\x5c' → cs = d :: ds → False) : c ≠ '\x5c' := by
    intro escaped
    cases cs with
    | nil => exact lone escaped rfl
    | cons d ds => exact taking d ds escaped rfl
  fun_induction stringLength cs with
  | case1 => simp [stringLength]
  | case2 =>
    intro n enough
    rw [List.take_of_length_le enough, stringLength]
  | case3 d cs ih =>
    intro n enough
    obtain ⟨m, rfl⟩ := Nat.exists_eq_add_of_le' (Nat.le_of_add_left_le enough)
    rw [List.take_succ_cons, List.take_succ_cons, stringLength, ih m (by omega)]
  | case4 c cs lone taking quote =>
    intro n enough
    obtain ⟨m, rfl⟩ := Nat.exists_eq_add_of_le' enough
    rw [List.take_succ_cons, stringLength_cons (unescaped lone taking), if_pos quote]
  | case5 c cs lone taking other broken =>
    intro n _
    cases n with
    | zero => rfl
    | succ n =>
      rw [List.take_succ_cons, stringLength_cons (unescaped lone taking), if_neg other,
        if_pos broken]
  | case6 c cs lone taking other unbroken ih =>
    intro n enough
    obtain ⟨m, rfl⟩ := Nat.exists_eq_add_of_le' (Nat.le_of_add_left_le enough)
    rw [List.take_succ_cons, stringLength_cons (unescaped lone taking), if_neg other,
      if_neg unbroken, ih m (Nat.le_of_succ_le_succ enough)]

/-- A pattern is found in a part if it is found in the whole and fits into the part. -/
theorem startsWith_take (pattern cs : List Char) (n : Nat) :
    startsWith pattern (cs.take n) = (decide (pattern.length ≤ n) && startsWith pattern cs) := by
  induction pattern generalizing cs n with
  | nil => simp [startsWith]
  | cons p pattern ih =>
    cases cs with
    | nil => simp [startsWith]
    | cons c cs =>
      cases n with
      | zero => simp [startsWith]
      | succ n =>
        rw [List.take_succ_cons, startsWith, startsWith, ih, List.length_cons,
          Bool.and_left_comm]
        simp only [Nat.add_le_add_iff_right]

theorem settled_zero : Settled fun _ => 0 :=
  fun _ _ _ => rfl

/-- One length after another. -/
theorem Settled.andThen {first second : List Char → Nat} (settled : Settled first)
    (settled' : Settled second) :
    Settled fun cs => first cs + second (cs.drop (first cs)) := by
  intro cs n enough
  dsimp only at enough ⊢
  rw [settled cs n (by omega), List.drop_take, settled' _ (n - first cs) (by omega)]

/-- A pattern with a length behind it, or another length where the pattern is not found. -/
theorem Settled.behind {found missed : List Char → Nat} (pattern : List Char)
    (settled : Settled found) (settled' : Settled missed) :
    Settled fun cs =>
      if startsWith pattern cs then pattern.length + found (cs.drop pattern.length)
      else missed cs := by
  intro cs n enough
  dsimp only at enough ⊢
  rw [startsWith_take]
  by_cases starts : startsWith pattern cs = true
  · rw [if_pos starts] at enough
    have fits : pattern.length ≤ n := by omega
    rw [starts, decide_eq_true fits, Bool.and_true, if_pos rfl, if_pos rfl, List.drop_take,
      settled _ _ (by omega)]
  · rw [if_neg starts] at enough
    rw [Bool.eq_false_iff.mpr starts, Bool.and_false, settled' cs n enough]
    rfl

theorem fractionLength_eq (cs : List Char) : fractionLength cs =
    if startsWith ".d".toList cs then 2 + runLength Char.isDigit (cs.drop 2) else 0 := by
  rw [fractionLength.eq_def]
  split
  · simp [startsWith, Nat.add_comm]
  · rename_i other
    rw [if_neg]
    intro starts
    cases cs with
    | nil => cases starts
    | cons c cs =>
      cases cs with
      | nil => simp [startsWith] at starts
      | cons d cs =>
        have matched : c = '.' ∧ d.isDigit = true := by simpa [startsWith] using starts
        exact other d cs (by rw [matched.1])

theorem zoneLength_eq (cs : List Char) : zoneLength cs =
    if startsWith "Z".toList cs then 1
    else if startsWith "+dd:dd".toList cs then 6
    else if startsWith "-dd:dd".toList cs then 6 else 0 := by
  cases cs with
  | nil => rfl
  | cons c cs =>
    by_cases zulu : c = 'Z'
    · rw [zulu]
      rfl
    · rw [zoneLength.eq_2 c cs zulu]
      by_cases plus : c = '+'
      · simp [plus, startsWith]
      · by_cases minus : c = '-' <;> simp [plus, minus, zulu, startsWith]

theorem settled_fractionLength : Settled fractionLength := by
  rw [funext fractionLength_eq]
  exact (settled_runLength _).behind ".d".toList settled_zero

theorem settled_zoneLength : Settled zoneLength := by
  rw [funext zoneLength_eq]
  exact settled_zero.behind "Z".toList (settled_zero.behind "+dd:dd".toList
    (settled_zero.behind "-dd:dd".toList settled_zero))

theorem settled_timeLength : Settled timeLength := by
  have eq (cs : List Char) : timeLength cs = if startsWith "Tdd:dd:dd".toList cs then
      9 + (fractionLength (cs.drop 9) + zoneLength ((cs.drop 9).drop (fractionLength (cs.drop 9))))
      else 0 := by
    rw [timeLength, List.drop_drop, Nat.add_assoc]
  rw [funext eq]
  exact (settled_fractionLength.andThen settled_zoneLength).behind "Tdd:dd:dd".toList settled_zero

end Settled

section Extent

theorem numberExtent_take (enough : (numberExtent c cs).2 ≤ n) :
    numberExtent c (cs.take n) = numberExtent c cs := by
  have size : "dddd-dd-dd".toList.length = 10 := rfl
  have starts := startsWith_take "dddd-dd-dd".toList (c :: cs) (n + 1)
  rw [List.take_succ_cons, size] at starts
  rw [numberExtent] at enough
  rw [numberExtent, numberExtent, starts]
  by_cases date : startsWith "dddd-dd-dd".toList (c :: cs) = true
  · rw [if_pos date] at enough
    have fits : 9 + timeLength (cs.drop 9) ≤ n := enough
    have time := settled_timeLength (cs.drop 9) (n - 9) (by omega)
    rw [date, decide_eq_true (by omega), Bool.and_true, if_pos rfl, if_pos rfl, List.drop_take,
      time]
  · rw [if_neg date] at enough
    have fits : runLength Char.isDigit cs +
        fractionLength (cs.drop (runLength Char.isDigit cs)) ≤ n := enough
    have whole := settled_runLength Char.isDigit cs n (by omega)
    have fraction := settled_fractionLength (cs.drop (runLength Char.isDigit cs))
      (n - runLength Char.isDigit cs) (by omega)
    rw [if_neg date, Bool.eq_false_iff.mpr date, Bool.and_false, if_neg Bool.false_ne_true, whole]
    dsimp only
    rw [List.drop_take, fraction]

theorem runLength_pos {p : Char → Bool} (first : cs.head?.any p = true) : 0 < runLength p cs := by
  cases cs with
  | nil => cases first
  | cons d cs =>
    have member : p d = true := first
    rw [runLength, List.takeWhile_cons_of_pos member]
    exact Nat.succ_pos _

/-- What is decided by the next character, where there is one, is decided alike in a part that
holds it if it counts. -/
theorem head_take (decides : Option Char → Bool) (needed : decides none = false)
    (enough : decides cs.head? = true → n ≠ 0) :
    decides (cs.take n).head? = decides cs.head? := by
  rw [List.head?_take]
  split
  · rename_i zero
    rw [needed]
    exact (Bool.eq_false_iff.mpr fun first => enough first zero).symm
  · rfl

/-- A token is decided alike with and without the characters behind it. The second character counts
only where the token holds it. -/
theorem extent_take (enough : (extent c cs).2 ≤ n) : extent c (cs.take n) = extent c cs := by
  rw [extent] at enough
  rw [extent, extent]
  refine ite_congr rfl (fun blank => ?_) (fun solid => ?_)
  · rw [if_pos blank] at enough
    rw [settled_runLength _ cs n enough]
  rw [if_neg solid] at enough
  refine ite_congr (congrArg (· = true) ?_) (fun dashes => ?_) (fun other => ?_)
  · apply head_take (fun next => c == '-' && next == some '-') (Bool.and_false _)
    rintro dashes rfl
    rw [if_pos dashes] at enough
    rw [Bool.and_eq_true, beq_iff_eq, beq_iff_eq] at dashes
    exact absurd (runLength_pos (by rw [dashes.2]; rfl)) (Nat.not_lt.mpr enough)
  · rw [if_pos dashes] at enough
    rw [settled_runLength _ cs n enough]
  rw [if_neg other] at enough
  refine ite_congr (congrArg (· = true) ?_) (fun opened => ?_) (fun other => ?_)
  · apply head_take (fun next => c == '/' && next == some '*') (Bool.and_false _)
    rintro opened rfl
    rw [if_pos opened] at enough
    exact absurd enough (Nat.not_succ_le_zero _)
  · rw [if_pos opened] at enough
    have fits : blockLength (cs.drop 1) + 1 ≤ n := enough
    rw [List.drop_take, settled_blockLength _ _ (by omega)]
  rw [if_neg other] at enough
  refine ite_congr rfl (fun quote => ?_) (fun other => ?_)
  · rw [if_pos quote] at enough
    rw [settled_stringLength cs n enough]
  rw [if_neg other] at enough
  refine ite_congr rfl (fun digit => ?_) (fun other => ?_)
  · rw [if_pos digit] at enough
    exact numberExtent_take enough
  rw [if_neg other] at enough
  refine ite_congr rfl (fun start => ?_) (fun other => ?_)
  · rw [if_pos start] at enough
    have fits : runLength isWordChar cs ≤ n := enough
    dsimp only
    rw [settled_runLength _ cs n fits, List.take_take, Nat.min_eq_left fits]
  rw [if_neg other] at enough
  refine ite_congr rfl (fun colon => ?_) (fun other => ?_)
  · rw [if_pos colon] at enough
    refine ite_congr (congrArg (· = true) ?_) (fun named => ?_) (fun _ => rfl)
    · apply head_take (·.any isNameStart) rfl
      rintro named rfl
      rw [if_pos named] at enough
      obtain ⟨d, first, start⟩ := (Option.any_eq_true _ _).mp named
      exact absurd (runLength_pos (by rw [first]; exact isWordChar_of_start start))
        (Nat.not_lt.mpr enough)
    · rw [if_pos named] at enough
      rw [settled_runLength _ cs n enough]
  rw [if_neg other] at enough
  refine ite_congr (congrArg (· = true) ?_) (fun _ => rfl) (fun _ => rfl)
  apply head_take (fun next => c == '!' && next == some '=') (Bool.and_false _)
  rintro unequal rfl
  rw [if_pos unequal] at enough
  exact absurd enough (Nat.not_succ_le_zero _)

end Extent

/-- The characters of one token are read as that token and the end. -/
theorem lexFrom_token (place : Place) (index : Nat) (c : Char) (cs : List Char) :
    lexFrom place index (c :: cs.take (extent c cs).2) =
      let text := c :: cs.take (extent c cs).2
      let after := place.advance text
      [⟨(extent c cs).1, String.ofList text, index, place.line, place.column,
        Channel.ofKind (extent c cs).1⟩,
        ⟨.eof, "", index + 1, after.line, after.column, .visible⟩] := by
  have whole : (cs.take (extent c cs).2).length ≤ (extent c cs).2 := List.length_take_le _ _
  rw [lexFrom, extent_take (Nat.le_refl _)]
  dsimp only
  rw [List.take_of_length_le whole, List.drop_eq_nil_of_le whole, lexFrom]

end Lexer

/-- The text of a token, read on its own, is that token and the end. -/
theorem tokenize_token_text {text : String} {t : Token} (member : t ∈ tokenize text)
    (other : t.kind ≠ .eof) :
    let after := Place.origin.advance t.text.toList
    tokenize t.text = #[{ t with index := 0, line := 1, column := 0 },
      ⟨.eof, "", 1, after.line, after.column, .visible⟩] := by
  obtain ⟨k, found⟩ := Array.getElem?_of_mem member
  have channel := tokenize_channel found
  obtain ended | ⟨c, cs, kind, chars⟩ := tokenize_extent found
  · exact absurd ended other
  intro after
  rw [tokenize, chars, Lexer.lexFrom_token, ← chars, ← kind, ← channel]
  dsimp only
  rw [String.ofList_toList]
  rfl

/-- A time zone that breaks off is no part of the moment before it, which is read alike without
it. -/
theorem tokenize_token_text_brokenZone :
    let t : Token := ⟨.dateTime, "2020-01-31T10:00:00.5", 2, 1, 2, .visible⟩
    t ∈ tokenize "= 2020-01-31T10:00:00.5+01:0" ∧ t.kind ≠ .eof ∧
      tokenize t.text = #[⟨.dateTime, "2020-01-31T10:00:00.5", 0, 1, 0, .visible⟩,
        ⟨.eof, "", 1, 1, 21, .visible⟩] := by
  intro t
  have found : (tokenize "= 2020-01-31T10:00:00.5+01:0")[2]? = some t := by decide +kernel
  have member := Array.mem_of_getElem? found
  have other : t.kind ≠ .eof := by decide
  have after : Place.origin.advance t.text.toList = ⟨1, 21⟩ := by decide +kernel
  have read := tokenize_token_text member other
  rw [after] at read
  exact ⟨member, other, read⟩

end SoqlAssist
