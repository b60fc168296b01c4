import Mathlib.Data.List.Chain
import Mathlib.Data.List.TakeWhile
import SoqlAssist.Text.Lines

/-!
Places in a text that is read in pieces. To move through two texts one after the other is to move
through both at once, but for a pair `\r\n` that is torn between them: its halves are then two line
breaks. The column is the same either way.
-/
namespace SoqlAssist.Text

/-- A pair `\r\n` stands half at the end of the first text and half at the start of the second. -/
def Torn (a b : List Char) : Prop :=
  a.getLast? = some '\r' ∧ b.head? = some '\n'

instance (a b : List Char) : Decidable (Torn a b) :=
  inferInstanceAs (Decidable (_ ∧ _))

variable {a b cs : List Char} {c : Char}

theorem not_torn_nil : ¬ Torn [] b := by
  simp [Torn]

theorem torn_cons_cons {d : Char} : Torn (c :: d :: cs) b ↔ Torn (d :: cs) b := by
  simp [Torn, List.getLast?_cons]

theorem torn_singleton : Torn [c] b ↔ ∃ rest, c = '\r' ∧ b = '\n' :: rest := by
  simp [Torn, List.head?_eq_some_iff]

section Count

theorem countBreaks_cons (apart : ¬ Torn [c] cs) :
    countBreaks (c :: cs) = countBreaks cs + if isBreak c then 1 else 0 := by
  rw [countBreaks]
  · split <;> rfl
  · rintro rest rfl rfl
    exact apart (by simp [Torn])

theorem countBreaks_pair : countBreaks ('\r' :: '\n' :: cs) = countBreaks cs + 1 := rfl

/-- A break in front of another text is counted with it only if the two make a pair. -/
theorem countBreaks_cons_add (c : Char) (cs : List Char) :
    countBreaks (c :: cs) + (if Torn [c] cs then 1 else 0) =
      countBreaks [c] + countBreaks cs := by
  by_cases torn : Torn [c] cs
  · obtain ⟨rest, rfl, rfl⟩ := torn_singleton.mp torn
    have single : countBreaks ['\r'] = 1 := rfl
    have later : countBreaks ('\n' :: rest) = countBreaks rest + 1 :=
      countBreaks_cons (by simp [Torn])
    rw [if_pos torn, countBreaks_pair, single, later]
    omega
  · have single : countBreaks [c] = if isBreak c then 1 else 0 :=
      (countBreaks_cons (by simp [Torn])).trans (Nat.zero_add _)
    rw [if_neg torn, countBreaks_cons torn, single]
    omega

/-- Breaks are counted piece by piece, but for a pair that is torn. -/
theorem countBreaks_append (a b : List Char) :
    countBreaks (a ++ b) + (if Torn a b then 1 else 0) = countBreaks a + countBreaks b := by
  induction a with
  | nil => simp [not_torn_nil, countBreaks]
  | cons c cs ih =>
    cases cs with
    | nil => exact countBreaks_cons_add c b
    | cons d cs =>
      have first := countBreaks_cons_add c (d :: cs)
      have whole := countBreaks_cons_add c (d :: cs ++ b)
      have same : Torn [c] (d :: cs ++ b) ↔ Torn [c] (d :: cs) := by simp [Torn]
      rw [List.cons_append]
      simp only [same] at whole
      simp only [torn_cons_cons]
      omega

theorem countBreaks_eq_zero : countBreaks cs = 0 ↔ cs.any isBreak = false := by
  induction cs with
  | nil => simp [countBreaks]
  | cons c cs ih =>
    rw [List.any_cons, Bool.or_eq_false_iff, ← ih]
    by_cases torn : Torn [c] cs
    · obtain ⟨rest, rfl, rfl⟩ := torn_singleton.mp torn
      simp [countBreaks_pair, isBreak]
    · rw [countBreaks_cons torn]
      cases isBreak c <;> simp

end Count

section Last

/-- The last line of two texts is that of the second, with that of the first before it if there is
no break between. -/
theorem lastLine_append (a b : List Char) :
    lastLine (a ++ b) = if b.any isBreak then lastLine b else lastLine a ++ b := by
  split
  · rename_i broken
    obtain ⟨c, member, found⟩ := List.any_eq_true.mp broken
    have stops : (b.reverse.takeWhile (!isBreak ·)).length ≠ b.reverse.length := by
      intro same
      have whole := (List.takeWhile_prefix (!isBreak ·)).eq_of_length same
      have plain := List.takeWhile_eq_self_iff.mp whole c (List.mem_reverse.mpr member)
      simp [found] at plain
    rw [lastLine, List.reverse_append, List.takeWhile_append, if_neg stops, lastLine]
  · rename_i unbroken
    have plain : ∀ c ∈ b.reverse, (!isBreak c) = true := by
      intro c member
      have found := List.any_eq_false.mp (Bool.eq_false_iff.mpr unbroken) c
        (List.mem_reverse.mp member)
      simpa using found
    rw [lastLine, List.reverse_append, List.takeWhile_append_of_pos plain, List.reverse_append,
      List.reverse_reverse, lastLine]

theorem lastLine_of_unbroken (unbroken : cs.any isBreak = false) : lastLine cs = cs := by
  have split := lastLine_append [] cs
  rw [List.nil_append, if_neg (by simp [unbroken])] at split
  exact split

theorem lastLine_cons (c : Char) (cs : List Char) :
    lastLine (c :: cs) = if isBreak c || cs.any isBreak then lastLine cs else c :: cs := by
  have split := lastLine_append [c] cs
  rw [List.singleton_append] at split
  rw [split]
  cases later : cs.any isBreak with
  | true => simp
  | false =>
    rw [lastLine_of_unbroken later]
    cases broken : isBreak c <;> simp [lastLine, broken]

theorem length_lastLine_cons : (lastLine (c :: cs)).length =
    (lastLine cs).length + if isBreak c || cs.any isBreak then 0 else 1 := by
  rw [lastLine_cons]
  split
  · rfl
  · rename_i unbroken
    have later : cs.any isBreak = false := by
      cases found : cs.any isBreak with
      | true => exact absurd (by simp [found]) unbroken
      | false => rfl
    rw [lastLine_of_unbroken later, List.length_cons]

end Last

section Line

theorem Torn.cons (torn : Torn cs b) : Torn (c :: cs) b := by
  obtain ⟨last, first⟩ := torn
  exact ⟨by rw [List.getLast?_cons, last]; rfl, first⟩

theorem afterBreak_cons (apart : ¬ Torn [c] cs) :
    afterBreak? (c :: cs) = if isBreak c then some cs else afterBreak? cs := by
  rw [afterBreak?]
  rintro rest rfl rfl
  exact apart (by simp [Torn])

/-- The line on which a text leaves off begins with the last line of the text. -/
theorem line_countBreaks (apart : ¬ Torn a b) :
    line? (a ++ b) (countBreaks a) = some (lastLine a ++ b.takeWhile (!isBreak ·)) := by
  fun_induction countBreaks a with
  | case1 => rfl
  | case2 cs ih =>
    have whole : lastLine ('\r' :: '\n' :: cs) = lastLine cs := by
      simp [lastLine_cons, isBreak]
    rw [whole]
    exact ih fun torn => apart torn.cons.cons
  | case3 c cs alone broken ih =>
    have whole : ¬ Torn [c] (cs ++ b) := by
      intro torn
      obtain ⟨rest, rfl, start⟩ := torn_singleton.mp torn
      cases cs with
      | nil => exact apart (torn_singleton.mpr ⟨rest, rfl, start⟩)
      | cons d cs =>
        obtain ⟨rfl, _⟩ := List.cons.inj start
        exact alone cs rfl rfl
    rw [lastLine_cons, if_pos (by simp [broken]), List.cons_append, line?, afterBreak_cons whole,
      if_pos broken]
    exact ih fun torn => apart torn.cons
  | case4 c cs alone plain ih =>
    have rest := ih fun torn => apart torn.cons
    have plain : isBreak c = false := Bool.eq_false_iff.mpr plain
    have whole : ¬ Torn [c] (cs ++ b) := by
      intro torn
      obtain ⟨_, rfl, _⟩ := torn_singleton.mp torn
      exact absurd plain (by decide)
    rw [lastLine_cons, plain, Bool.false_or, List.cons_append]
    -- The character is on the line itself or on an earlier one.
    cases lines : countBreaks cs with
    | zero =>
      have unbroken := countBreaks_eq_zero.mp lines
      rw [lines, line?, lastLine_of_unbroken unbroken] at rest
      rw [line?, List.takeWhile_cons_of_pos (by simp [plain]), Option.some.inj rest]
      simp [unbroken]
    | succ n =>
      have broken : cs.any isBreak = true := by
        cases found : cs.any isBreak with
        | true => rfl
        | false => exact absurd (lines.symm.trans (countBreaks_eq_zero.mpr found)) (by simp)
      rw [lines] at rest
      rw [line?, afterBreak_cons whole, if_neg (by simp [plain]), if_pos broken]
      exact rest

end Line

namespace Place

/-- The place after a text: its breaks are lines, and what follows the last of them is the
column. -/
theorem advance_eq (p : Place) (cs : List Char) :
    p.advance cs = ⟨p.line + countBreaks cs,
      (if cs.any isBreak then 0 else p.column) + (lastLine cs).length⟩ := by
  fun_induction advance p cs with
  | case1 p => simp [countBreaks, lastLine]
  | case2 p cs ih =>
    rw [ih, countBreaks_pair, length_lastLine_cons, length_lastLine_cons]
    simp [isBreak, Nat.add_assoc, Nat.add_comm 1]
  | case3 p c cs alone ih =>
    have apart : ¬ Torn [c] cs := by
      intro torn
      obtain ⟨rest, rfl, rfl⟩ := torn_singleton.mp torn
      exact alone rest rfl rfl
    rw [ih, countBreaks_cons apart, length_lastLine_cons, List.any_cons]
    cases isBreak c <;> cases cs.any isBreak <;> simp <;> omega

/-- Two texts one after the other: a torn pair is one line more. -/
theorem advance_advance (p : Place) (a b : List Char) :
    (p.advance a).advance b = ⟨(p.advance (a ++ b)).line + (if Torn a b then 1 else 0),
      (p.advance (a ++ b)).column⟩ := by
  have lines := countBreaks_append a b
  simp only [advance_eq, mk.injEq, lastLine_append, List.any_append]
  refine ⟨by omega, ?_⟩
  cases later : b.any isBreak with
  | true => simp
  | false =>
    rw [lastLine_of_unbroken later]
    simp [Nat.add_assoc]

end Place

/-- The number of pairs that are torn between neighbours in a list of texts. -/
def tornPairs : List (List Char) → Nat
  | a :: b :: rest => (if Torn a b then 1 else 0) + tornPairs (b :: rest)
  | _ => 0

theorem tornPairs_eq_zero {texts : List (List Char)} :
    tornPairs texts = 0 ↔ texts.IsChain fun a b => ¬ Torn a b := by
  induction texts with
  | nil => simp [tornPairs]
  | cons a texts ih =>
    cases texts with
    | nil => simp [tornPairs]
    | cons b rest => simp [tornPairs, ih]

/-- A text is torn from the texts that come next if it is torn from the first of them. -/
theorem torn_flatten {rest : List (List Char)} (filled : b ≠ []) :
    Torn a (b :: rest).flatten ↔ Torn a b := by
  obtain ⟨c, cs, rfl⟩ := List.exists_cons_of_ne_nil filled
  simp [Torn]

/-- Places move through a list of texts as through the whole, but for the lines that torn pairs
add. -/
theorem Place.foldl_advance (p : Place) {texts : List (List Char)} (filled : ∀ a ∈ texts, a ≠ []) :
    texts.foldl advance p = ⟨(p.advance texts.flatten).line + tornPairs texts,
      (p.advance texts.flatten).column⟩ := by
  induction texts generalizing p with
  | nil => rfl
  | cons a texts ih =>
    rw [List.foldl_cons, ih (p.advance a) fun b member => filled b (List.mem_cons_of_mem _ member),
      advance_advance, List.flatten_cons]
    cases texts with
    | nil => simp [Torn, tornPairs]
    | cons b rest =>
      simp only [torn_flatten (filled b (by simp)), tornPairs, Nat.add_assoc]

end SoqlAssist.Text
