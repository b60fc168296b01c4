import Mathlib.Data.Prod.Lex
import SoqlAssist.Proofs.Query.Diagnostics
import SoqlAssist.Proofs.Token.Place
import SoqlAssist.Query.Cursor

/-!
From an editor's position to a token. A column in UTF-16 units is read as the number of characters
that it stands behind, on every line of the text; past the last line units are taken for characters.
The token of a cursor is the one that the cursor is in, since no token before it reaches further
than its start: the ends of tokens increase, also where a string is taken to end too early. Wherever
a cursor is, if it stands for a position at all, there is a token at it, and no blank.
-/
namespace SoqlAssist

namespace Text

def unitCount (cs : List Char) : Nat :=
  (cs.map units16).sum

/-- A line break has one unit. -/
theorem isBreak_of_wide {c : Char} (wide : units16 c = 2) : isBreak c = false :=
  Lexer.isBreak_of_class (p := (units16 · == 2)) (by decide) (by decide) (by simp [wide])

section Lines

variable {a b cs rest : List Char} {n : Nat}

theorem not_torn_cons {c : Char} (apart : ¬ Torn a b) (whole : ¬ Torn [c] (a ++ b)) :
    ¬ Torn (c :: a) b := by
  cases a with
  | nil => exact whole
  | cons d a => exact fun torn => apart (torn_cons_cons.mp torn)

/-- Every line begins somewhere: a text can be cut behind any number of its breaks. -/
theorem exists_cut (cs : List Char) (few : n ≤ countBreaks cs) :
    ∃ a b, cs = a ++ b ∧ ¬ Torn a b ∧ countBreaks a = n := by
  fun_induction countBreaks cs generalizing n with
  | case1 => exact ⟨[], [], rfl, not_torn_nil, (Nat.le_zero.mp few).symm⟩
  | case2 cs ih =>
    cases n with
    | zero => exact ⟨[], _, rfl, not_torn_nil, rfl⟩
    | succ n =>
      obtain ⟨a, b, rfl, apart, count⟩ := ih (Nat.le_of_succ_le_succ few)
      refine ⟨'\r' :: '\n' :: a, b, rfl, ?_, by rw [countBreaks_pair, count]⟩
      have second : ¬ Torn ('\n' :: a) b := not_torn_cons apart (by simp [Torn])
      exact fun torn => second (torn_cons_cons.mp torn)
  | case3 c cs alone broken ih =>
    have whole : ¬ Torn [c] cs := fun torn => by
      obtain ⟨rest, rfl, rfl⟩ := torn_singleton.mp torn
      exact alone rest rfl rfl
    cases n with
    | zero => exact ⟨[], _, rfl, not_torn_nil, rfl⟩
    | succ n =>
      obtain ⟨a, b, rfl, apart, count⟩ := ih (Nat.le_of_succ_le_succ few)
      refine ⟨c :: a, b, rfl, not_torn_cons apart whole, ?_⟩
      have front : ¬ Torn [c] a := by
        cases a with
        | nil => simp [Torn]
        | cons d a => exact whole
      rw [countBreaks_cons front, if_pos broken, count]
  | case4 c cs alone plain ih =>
    have free (d : List Char) : ¬ Torn [c] d := fun torn => by
      obtain ⟨_, rfl, _⟩ := torn_singleton.mp torn
      exact plain rfl
    obtain ⟨a, b, rfl, apart, count⟩ := ih few
    refine ⟨c :: a, b, rfl, not_torn_cons apart (free _), ?_⟩
    rw [countBreaks_cons (free a), if_neg plain, count, Nat.add_zero]

theorem countBreaks_afterBreak (found : afterBreak? cs = some rest) :
    countBreaks cs = countBreaks rest + 1 := by
  fun_induction afterBreak? cs with
  | case1 => cases found
  | case2 cs =>
    obtain rfl := Option.some.inj found
    exact countBreaks_pair
  | case3 c cs alone broken =>
    obtain rfl := Option.some.inj found
    rw [countBreaks, if_pos broken]
    exact alone
  | case4 c cs alone plain ih =>
    rw [countBreaks, if_neg plain]
    · exact ih found
    · exact alone

theorem line_eq_none (beyond : countBreaks cs < n) : line? cs n = none := by
  induction n generalizing cs with
  | zero => exact absurd beyond (Nat.not_lt_zero _)
  | succ n ih =>
    rw [line?]
    cases found : afterBreak? cs with
    | none => rfl
    | some rest =>
      have count := countBreaks_afterBreak found
      exact ih (by omega)

end Lines

end Text

open Text

namespace Cursor

section Units

variable {m n : Nat} {cs : List Char}

theorem charsFor_zero (cs : List Char) : charsFor 0 cs = 0 := by
  rw [charsFor]

theorem charsFor_cons {c : Char} (some : 0 < n) :
    charsFor n (c :: cs) = charsFor (n - units16 c) cs + 1 := by
  rw [charsFor]
  omega

/-- A text is read whole when all of its units are wanted. -/
theorem charsFor_append (s rest : List Char) (n : Nat) :
    charsFor (unitCount s + n) (s ++ rest) = s.length + charsFor n rest := by
  induction s with
  | nil => simp [unitCount]
  | cons c s ih =>
    have sum : unitCount (c :: s) = units16 c + unitCount s := rfl
    have wide : 0 < units16 c := by rcases units16_cases c with one | two <;> omega
    have left : unitCount (c :: s) + n - units16 c = unitCount s + n := by omega
    rw [List.cons_append, charsFor_cons (by omega), left, ih, List.length_cons]
    omega

theorem charsFor_le_length (n : Nat) (cs : List Char) : charsFor n cs ≤ cs.length := by
  induction cs generalizing n with
  | nil => cases n <;> exact Nat.le_refl 0
  | cons c cs ih =>
    cases n with
    | zero => exact Nat.zero_le _
    | succ n =>
      rw [charsFor_cons (Nat.succ_pos n)]
      exact Nat.succ_le_succ (ih _)

theorem charsFor_mono (le : m ≤ n) (cs : List Char) : charsFor m cs ≤ charsFor n cs := by
  induction cs generalizing m n with
  | nil => cases m <;> exact Nat.zero_le _
  | cons c cs ih =>
    cases m with
    | zero => exact Nat.zero_le _
    | succ m =>
      rw [charsFor_cons (Nat.succ_pos m), charsFor_cons (by omega)]
      exact Nat.succ_le_succ (ih (Nat.sub_le_sub_right le _))

end Units

/-- An editor's position is read exactly. Where a text is cut, but not between `\r` and `\n`, the
units before the cut on its line lead to the cut, and one unit more leads behind a character of two
units; on such a line columns do not decrease and stay on the line. Every line of the text is that
of a cut, and on the lines beyond units are taken for characters. -/
theorem ofEditor_exact (text : String) :
    (∀ a b, text.toList = a ++ b → ¬ Torn a b →
      let row := countBreaks a
      let front := lastLine a
      ofEditor text row (unitCount front) = ⟨row + 1, front.length + 1⟩ ∧
      (∀ c ∈ b.head?, units16 c = 2 →
        ofEditor text row (unitCount front + 1) = ⟨row + 1, front.length + 2⟩) ∧
      Monotone (fun n => (ofEditor text row n).column) ∧
      ∀ n, (ofEditor text row n).column ≤ (front ++ b.takeWhile (!isBreak ·)).length + 1) ∧
    (∀ row ≤ countBreaks text.toList,
      ∃ a b, text.toList = a ++ b ∧ ¬ Torn a b ∧ countBreaks a = row) ∧
    ∀ row n, countBreaks text.toList < row → ofEditor text row n = ⟨row + 1, n + 1⟩ := by
  refine ⟨?_, fun row few => exists_cut text.toList few, ?_⟩
  · intro a b split apart row front
    have line := line_countBreaks apart
    rw [← split] at line
    have read (n : Nat) : ofEditor text row n =
        ⟨row + 1, charsFor n (front ++ b.takeWhile (!isBreak ·)) + 1⟩ := by
      rw [ofEditor, line]
    simp only [read]
    refine ⟨?_, ?_, ?_, ?_⟩
    · have whole := charsFor_append front (b.takeWhile (!isBreak ·)) 0
      rw [charsFor_zero, Nat.add_zero, Nat.add_zero] at whole
      rw [whole]
    · intro c first wide
      obtain ⟨rest, rfl⟩ := List.head?_eq_some_iff.mp first
      rw [List.takeWhile_cons_of_pos (by simp [isBreak_of_wide wide]), charsFor_append,
        charsFor_cons Nat.one_pos, wide, charsFor_zero]
    · intro m n le
      exact Nat.succ_le_succ (charsFor_mono le _)
    · intro n
      exact Nat.succ_le_succ (charsFor_le_length n _)
  · intro row n beyond
    rw [ofEditor, line_eq_none beyond]

/-- A cut between two characters of two units, on the second of two lines. -/
theorem ofEditor_exact_wide :
    let text := "é\r\n😀😁b"
    (text.toList = "é\r\n😀".toList ++ "😁b".toList ∧ ¬ Torn "é\r\n😀".toList "😁b".toList) ∧
      ofEditor text 1 2 = ⟨2, 2⟩ ∧ ofEditor text 1 3 = ⟨2, 3⟩ ∧
      countBreaks text.toList < 2 ∧ ofEditor text 2 7 = ⟨3, 8⟩ := by
  have apart : ¬ Torn "é\r\n😀".toList "😁b".toList := by decide
  have beyond : countBreaks "é\r\n😀😁b".toList < 2 := by decide
  obtain ⟨cuts, _, outside⟩ := ofEditor_exact "é\r\n😀😁b"
  obtain ⟨whole, half, _⟩ := cuts "é\r\n😀".toList "😁b".toList rfl apart
  exact ⟨⟨rfl, apart⟩, whole, half '😁' rfl rfl, beyond, outside 2 7 beyond⟩

end Cursor

section Order

namespace Text.Place

/-- Places in the order of the document: by line, then by column. -/
def key (p : Place) : Nat ×ₗ Nat :=
  toLex (p.line, p.column)

theorem key_injective : Function.Injective key := by
  intro p q same
  obtain ⟨line, column⟩ := Prod.mk.inj (toLex.injective same)
  cases p
  cases q
  rw [mk.injEq]
  exact ⟨line, column⟩

instance : LinearOrder Place := LinearOrder.lift' key key_injective

variable {p q : Place}

theorem le_iff : p ≤ q ↔ p.line < q.line ∨ p.line = q.line ∧ p.column ≤ q.column :=
  Prod.Lex.toLex_le_toLex

theorem lt_iff : p < q ↔ p.line < q.line ∨ p.line = q.line ∧ p.column < q.column :=
  Prod.Lex.toLex_lt_toLex

end Text.Place

def Token.start (t : Token) : Place := ⟨t.line, t.column⟩

def Token.stop (t : Token) : Place := ⟨t.endLine, t.endColumn⟩

variable {text : String} {i j : Nat} {a b t u : Token}

theorem start_le_next (first : (tokenize text)[i]? = some a)
    (second : (tokenize text)[i + 1]? = some b) : a.start ≤ b.start := by
  obtain ⟨line, column⟩ := tokenize_next first second
  rw [Place.le_iff]
  show a.line < b.line ∨ a.line = b.line ∧ a.column ≤ b.column
  rw [line, column, Token.endColumn]
  cases broken : a.text.toList.any isBreak with
  | true =>
    have some : countBreaks a.text.toList ≠ 0 := by
      rw [Ne, countBreaks_eq_zero, broken]
      simp
    omega
  | false =>
    have none := countBreaks_eq_zero.mpr broken
    simp [none]

/-- No token reaches past the start of the next one. A string may be taken to end before it. -/
theorem stop_le_next (first : (tokenize text)[i]? = some a)
    (second : (tokenize text)[i + 1]? = some b) : a.stop ≤ b.start := by
  obtain ⟨line, column⟩ := tokenize_next first second
  have lines := endLine_eq first second
  rw [Place.le_iff]
  show a.endLine < b.line ∨ a.endLine = b.line ∧ a.endColumn ≤ b.column
  omega

theorem start_mono (le : i ≤ j) (first : (tokenize text)[i]? = some a)
    (second : (tokenize text)[j]? = some b) : a.start ≤ b.start := by
  induction j, le using Nat.le_induction generalizing b with
  | base =>
    obtain rfl := Option.some.inj (first.symm.trans second)
    exact le_refl _
  | succ j le ih =>
    obtain ⟨lt, _⟩ := Array.getElem?_eq_some_iff.mp second
    have middle := Array.getElem?_eq_getElem (Nat.lt_of_succ_lt lt)
    exact (ih middle).trans (start_le_next middle second)

theorem stop_le_start (lt : i < j) (first : (tokenize text)[i]? = some a)
    (second : (tokenize text)[j]? = some b) : a.stop ≤ b.start := by
  obtain ⟨within, _⟩ := Array.getElem?_eq_some_iff.mp second
  have middle := Array.getElem?_eq_getElem (Nat.lt_of_le_of_lt lt within)
  exact (stop_le_next first middle).trans (start_mono lt middle second)

end Order

namespace Cursor

variable {text : String} {c : Cursor} {i : Nat} {t u : Token}

def place (c : Cursor) : Place := ⟨c.line, c.column - 1⟩

/-- The cursor is in the token: between its start and its end, or behind the last character of the
last line for the end mark. -/
def Within (c : Cursor) (t : Token) : Prop :=
  if t.kind = .eof then c.line = t.line ∧ t.column ≤ c.column - 1
  else t.start ≤ c.place ∧ c.place < t.stop

theorem coveredBy_iff (other : t.kind ≠ .eof) : c.coveredBy t = true ↔ c.place < t.stop := by
  rw [coveredBy, if_neg other, Place.lt_iff, Bool.or_eq_true, Bool.and_eq_true, decide_eq_true_eq,
    decide_eq_true_eq, beq_iff_eq]
  exact or_congr_right (and_congr_left' eq_comm)

theorem Within.start_le (within : c.Within t) : t.start ≤ c.place := by
  rw [Within] at within
  split at within
  · obtain ⟨line, column⟩ := within
    exact Place.le_iff.mpr (.inr ⟨line.symm, column⟩)
  · exact within.1

theorem Within.covered (within : c.Within t) : c.coveredBy t = true := by
  rw [Within] at within
  split at within
  · rename_i last
    obtain ⟨line, column⟩ := within
    simp [coveredBy, last, line, column]
  · exact (coveredBy_iff ‹_›).mpr within.2

/-- The search passes by the tokens that do not reach past the cursor. -/
theorem resolveFrom_append {front : List Token} (back : List Token) (c : Cursor) (k : Nat)
    (previous : Option Token) (passed : ∀ u ∈ front, c.coveredBy u = false)
    (covered : c.coveredBy t = true) :
    c.resolveFrom k previous (front ++ t :: back) =
      .ok (c.target (k + front.length) (front.getLast?.or previous) t) := by
  induction front generalizing k previous with
  | nil => simp [resolveFrom, covered]
  | cons u front ih =>
    have first := passed u List.mem_cons_self
    rw [List.cons_append, resolveFrom, if_neg (by simp [first]),
      ih _ _ fun v member => passed v (List.mem_cons_of_mem _ member), List.getLast?_cons,
      List.length_cons]
    congr 2
    · omega
    · cases front.getLast? <;> rfl

/-- No token before the one that the cursor is in reaches past the cursor. -/
theorem not_covered_before (found : (tokenize text)[i]? = some t) (within : c.Within t) :
    ∀ u ∈ (tokenize text).toList.take i, c.coveredBy u = false := by
  intro u member
  obtain ⟨_, _, filled⟩ := tokenize_at found
  obtain ⟨j, lt, here⟩ := List.mem_take_iff_getElem.mp member
  have earlier : (tokenize text)[j]? = some u := by
    rw [← Array.getElem?_toList]
    exact List.getElem?_eq_some_iff.mpr ⟨by omega, here⟩
  rw [Bool.eq_false_iff, Ne, coveredBy_iff (filled u member).1, not_lt]
  exact (stop_le_start (by omega) earlier found).trans within.start_le

theorem startsAt_iff : c.startsAt t = true ↔ t.start = c.place := by
  rw [startsAt, Bool.and_eq_true, beq_iff_eq, beq_iff_eq, Token.start, place, Place.mk.injEq]

/-- The last of the tokens before a position. -/
theorem getLast?_take_tokens {tokens : TokenStream} (within : i ≤ tokens.size) :
    (tokens.toList.take i).getLast? = if 0 < i then tokens[i - 1]? else none := by
  cases i with
  | zero => rfl
  | succ k =>
    rw [List.take_succ_eq_append_getElem within, List.getLast?_concat, if_pos (Nat.succ_pos k),
      Nat.add_sub_cancel, Array.getElem?_eq_getElem within, Array.getElem_toList]

/-- A cursor in a token of a text stands for the token before it, if that ends with a character of a
name and the cursor is between the two; for the token behind it, if it is a blank; and else for the
token itself. -/
theorem resolve_within (text : String) (c : Cursor) (i : Nat) (t : Token)
    (found : (tokenize text)[i]? = some t) (within : c.Within t) :
    c.resolve (tokenize text) = .ok (
      if t.start = c.place ∧ 0 < i ∧ (tokenize text)[i - 1]?.any Token.endsWithWordChar then i - 1
      else if t.kind = .whitespace then i + 1
      else i) := by
  obtain ⟨lt, here⟩ := List.getElem?_eq_some_iff.mp (Array.getElem?_toList.trans found)
  have split : (tokenize text).toList =
      (tokenize text).toList.take i ++ t :: (tokenize text).toList.drop (i + 1) := by
    rw [← here, ← List.drop_eq_getElem_cons lt, List.take_append_drop]
  have some : (tokenize text).isEmpty = false := by
    rw [Array.isEmpty_eq_false_iff]
    rintro empty
    simp [empty] at found
  have searched := resolveFrom_append ((tokenize text).toList.drop (i + 1)) c 0 none
    (not_covered_before found within) within.covered
  rw [← split, List.length_take, Nat.min_eq_left (Nat.le_of_lt lt), Nat.zero_add, Option.or_none]
    at searched
  rw [resolve, if_neg (by simp [some]), searched, target,
    getLast?_take_tokens (Nat.le_of_lt lt)]
  have same : (c.startsAt t && (if 0 < i then (tokenize text)[i - 1]? else none).any
      (·.endsWithWordChar)) = true ↔
        t.start = c.place ∧ 0 < i ∧ (tokenize text)[i - 1]?.any Token.endsWithWordChar := by
    rw [Bool.and_eq_true, startsAt_iff]
    refine and_congr_right fun _ => ?_
    by_cases first : 0 < i <;> simp [first]
  simp only [same]

/-- At the blank behind a name, on the line below a string that holds a line break. -/
theorem resolve_within_behind_name :
    let t : Token := ⟨.whitespace, " ", 2, 2, 2, .hidden⟩
    ((tokenize "'\\\n'x y")[2]? = some t ∧ Within ⟨2, 3⟩ t) ∧
      resolve ⟨2, 3⟩ (tokenize "'\\\n'x y") = .ok 1 := by
  have found : (tokenize "'\\\n'x y")[2]? = some ⟨.whitespace, " ", 2, 2, 2, .hidden⟩ := by cbv
  have before : (tokenize "'\\\n'x y")[1]? = some ⟨.identifier, "x", 1, 2, 1, .visible⟩ := by cbv
  have within : Within ⟨2, 3⟩ ⟨.whitespace, " ", 2, 2, 2, .hidden⟩ := by
    rw [Within, if_neg (by decide)]
    exact ⟨le_refl _, Place.lt_iff.mpr (.inr (by decide))⟩
  have resolved := resolve_within _ ⟨2, 3⟩ 2 _ found within
  rw [if_pos ⟨rfl, by decide, by rw [before]; rfl⟩] at resolved
  exact ⟨⟨found, within⟩, resolved⟩

/-- A position that is found is the target of a token that reaches past the cursor. -/
theorem resolveFrom_eq_ok {k n : Nat} {previous : Option Token} {ts : List Token}
    (resolved : c.resolveFrom k previous ts = .ok n) :
    ∃ front t back, ts = front ++ t :: back ∧ c.coveredBy t = true ∧
      n = c.target (k + front.length) (front.getLast?.or previous) t := by
  induction ts generalizing k previous with
  | nil => cases resolved
  | cons u ts ih =>
    rw [resolveFrom] at resolved
    split at resolved
    · rename_i covered
      exact ⟨[], u, ts, rfl, covered, (Except.ok.inj resolved).symm⟩
    · obtain ⟨front, t, back, rfl, covered, target⟩ := ih resolved
      refine ⟨u :: front, t, back, rfl, covered, ?_⟩
      rw [target, List.length_cons, List.getLast?_cons, Nat.add_assoc, Nat.add_comm 1]
      cases front.getLast? <;> rfl

theorem resolve_eq_ok {tokens : TokenStream} {n : Nat} (resolved : c.resolve tokens = .ok n) :
    ∃ i t, tokens[i]? = some t ∧ c.coveredBy t = true ∧
      n = c.target i (if 0 < i then tokens[i - 1]? else none) t := by
  rw [resolve] at resolved
  split at resolved
  · cases resolved
  · obtain ⟨front, t, back, split, covered, rfl⟩ := resolveFrom_eq_ok resolved
    have found : tokens[front.length]? = some t := by
      rw [← Array.getElem?_toList, split]
      simp
    obtain ⟨lt, _⟩ := Array.getElem?_eq_some_iff.mp found
    have before : tokens.toList.take front.length = front := by
      rw [split, List.take_left]
    refine ⟨front.length, t, found, covered, ?_⟩
    rw [← getLast?_take_tokens (Nat.le_of_lt lt), before, Nat.zero_add, Option.or_none]

/-- The target of a token: the token before it, which ends with a character of a name, the token
behind blanks, or the token itself. -/
theorem target_cases (c : Cursor) (i : Nat) (previous : Option Token) (t : Token) :
    (∃ u, previous = some u ∧ u.endsWithWordChar = true ∧ c.target i previous t = i - 1) ∨
      (t.kind = .whitespace ∧ c.target i previous t = i + 1) ∨
      (t.kind ≠ .whitespace ∧ c.target i previous t = i) := by
  rw [target]
  split
  · rename_i touches
    rw [Bool.and_eq_true, Option.any_eq_true] at touches
    obtain ⟨_, u, before, word⟩ := touches
    exact .inl ⟨u, before, word, rfl⟩
  split
  · rename_i blank
    exact .inr (.inl ⟨blank, rfl⟩)
  · rename_i other
    exact .inr (.inr ⟨other, rfl⟩)

/-- Wherever the cursor is, a position that it stands for is that of a token, and not of a blank. -/
theorem resolve_usable (text : String) (c : Cursor) (k : Nat)
    (resolved : c.resolve (tokenize text) = .ok k) :
    ∃ t, (tokenize text)[k]? = some t ∧ t.kind ≠ .whitespace := by
  obtain ⟨i, t, found, _, target⟩ := resolve_eq_ok resolved
  obtain ⟨u, before, word, here⟩ | ⟨blank, here⟩ | ⟨other, here⟩ :=
    target_cases c i (if 0 < i then (tokenize text)[i - 1]? else none) t
  · rw [target, here]
    split at before
    · refine ⟨u, before, fun blank => ?_⟩
      rw [whitespace_ends before blank] at word
      cases word
    · cases before
  · obtain ⟨u, next⟩ := exists_next found (by simp [blank])
    rw [target, here]
    exact ⟨u, next, not_whitespace_pair found next blank⟩
  · rw [target, here]
    exact ⟨t, found, other⟩

/-- A cursor above the first line, and one far behind the end of a line that ends with blanks. -/
theorem resolve_usable_outside :
    (resolve ⟨0, 0⟩ (tokenize " x \n y") = .ok 1 ∧
        ∃ t, (tokenize " x \n y")[1]? = some t ∧ t.kind ≠ .whitespace) ∧
      resolve ⟨1, 40⟩ (tokenize " x \n y") = .ok 3 ∧
        ∃ t, (tokenize " x \n y")[3]? = some t ∧ t.kind ≠ .whitespace := by
  have above : resolve ⟨0, 0⟩ (tokenize " x \n y") = .ok 1 := by cbv
  have beside : resolve ⟨1, 40⟩ (tokenize " x \n y") = .ok 3 := by cbv
  exact ⟨⟨above, resolve_usable _ _ _ above⟩, beside, resolve_usable _ _ _ beside⟩

end Cursor

end SoqlAssist
