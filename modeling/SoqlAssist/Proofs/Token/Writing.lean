import Mathlib
import SoqlAssist.Proofs.Token.Spelling

/-!
Kinds written out and read back. A reserved word or a sign in its one spelling is read as one token
of its kind if a space, a parenthesis or nothing follows: no longer token begins with it then. So a
row of spellings with a space between two is read as the row of their kinds. What is read does not
depend on the place where the text stands.
-/
namespace SoqlAssist

open Text

namespace Lexer

variable {c : Char} {cs rest w : List Char} {k : TokenKind} {kinds : List TokenKind}

section Extent

/-- What follows ends a word and continues no sign: nothing, a space or a parenthesis. -/
def Separated (rest : List Char) : Prop :=
  ∀ d ∈ rest.head?, d ∈ [' ', '(', ')']

theorem separated_nil : Separated [] := by
  intro d first
  cases first

theorem separated_cons (listed : c ∈ [' ', '(', ')']) : Separated (c :: rest) := by
  intro d first
  obtain rfl := Option.some.inj first
  exact listed

theorem separated_cases (separated : Separated rest) :
    rest = [] ∨ ∃ tail, rest = ' ' :: tail ∨ rest = '(' :: tail ∨ rest = ')' :: tail := by
  cases rest with
  | nil => exact .inl rfl
  | cons d tail =>
    have first := separated d rfl
    simp only [List.mem_cons, List.not_mem_nil, or_false] at first
    refine .inr ⟨tail, ?_⟩
    rcases first with rfl | rfl | rfl <;> simp

theorem runLength_append {p : Char → Bool} (all : ∀ d ∈ w, p d = true)
    (stop : ∀ d ∈ rest.head?, p d = false) : runLength p (w ++ rest) = w.length := by
  rw [runLength, List.takeWhile_append_of_pos all, List.length_append]
  cases rest with
  | nil => rfl
  | cons d rest => simp [stop d rfl]

theorem extent_word (start : isNameStart c = true) (cs : List Char) :
    extent c cs = (wordKind (c :: cs.take (runLength isWordChar cs)), runLength isWordChar cs) := by
  have other (d : Char) (sign : isNameStart d = false) : (c == d) = false := by
    rw [beq_eq_false_iff_ne]
    rintro rfl
    rw [start] at sign
    cases sign
  have digit : c.isDigit = false := by
    have codes : (65 ≤ c.toNat ∧ c.toNat ≤ 90 ∨ 97 ≤ c.toNat ∧ c.toNat ≤ 122) ∨ c = '_' := by
      simpa [isNameStart, Char.isAlpha, Char.isUpper, Char.isLower, UInt32.le_iff_toNat_le]
        using start
    rcases codes with letter | rfl
    · simp [Char.isDigit, UInt32.le_iff_toNat_le]
      omega
    · decide
  have blank := isBlank_of_word (isWordChar_of_start start)
  simp [extent, blank, digit, start, other '-' (by decide), other '/' (by decide),
    other '\x27' (by decide)]

/-- The characters make one token of the kind, whatever comes behind a separator. -/
def Writes (k : TokenKind) (cs : List Char) : Prop :=
  ∃ c w, cs = c :: w ∧ ∀ rest, Separated rest → extent c (w ++ rest) = (k, w.length)

theorem writes_word (start : isNameStart c = true) (word : ∀ d ∈ w, isWordChar d = true) :
    Writes (wordKind (c :: w)) (c :: w) := by
  refine ⟨c, w, rfl, fun rest separated => ?_⟩
  have stop : ∀ d ∈ rest.head?, isWordChar d = false := by
    rcases separated_cases separated with rfl | ⟨tail, rfl | rfl | rfl⟩ <;> simp [isWordChar]
  rw [extent_word start, runLength_append word stop, List.take_left]

theorem writes_keyword (reserved : k ∈ TokenKind.keywords) : Writes k (upper k.name).toList := by
  have table : ∀ k ∈ TokenKind.keywords, (upper k.name).toList.head?.any isNameStart = true ∧
      (upper k.name).toList.all isWordChar = true ∧ wordKind (upper k.name).toList = k := by
    decide +kernel
  obtain ⟨start, word, kind⟩ := table k reserved
  generalize (upper k.name).toList = cs at *
  cases cs with
  | nil => cases start
  | cons c w =>
    rw [List.all_cons, Bool.and_eq_true, List.all_eq_true] at word
    rw [← kind]
    exact writes_word start word.2

def signs : List (TokenKind × List Char) :=
  [(.eq, ['=']), (.notEq, ['!', '=']), (.lt, ['<']), (.gt, ['>']), (.lParen, ['(']),
    (.rParen, [')']), (.comma, [',']), (.dot, ['.']), (.colon, [':']), (.plus, ['+']),
    (.minus, ['-'])]

/-- A minus before a separator starts no comment, and a colon no variable. -/
theorem writes_sign (sign : (k, w) ∈ signs) : Writes k w := by
  simp only [signs, List.mem_cons, Prod.mk.injEq, List.not_mem_nil, or_false] at sign
  rcases sign with ⟨rfl, rfl⟩ | ⟨rfl, rfl⟩ | ⟨rfl, rfl⟩ | ⟨rfl, rfl⟩ | ⟨rfl, rfl⟩ | ⟨rfl, rfl⟩ |
    ⟨rfl, rfl⟩ | ⟨rfl, rfl⟩ | ⟨rfl, rfl⟩ | ⟨rfl, rfl⟩ | ⟨rfl, rfl⟩
  all_goals
    refine ⟨_, _, rfl, fun rest separated => ?_⟩
    rcases separated_cases separated with rfl | ⟨tail, rfl | rfl | rfl⟩ <;> rfl

theorem writes_spelling {word : String} (spelled : k.spelling? = some word) :
    Writes k (upper word).toList := by
  have table : k ∈ TokenKind.keywords ∧ word = k.name ∨ (k, (upper word).toList) ∈ signs := by
    cases k <;> cases spelled <;> decide +kernel
  rcases table with ⟨reserved, rfl⟩ | sign
  · exact writes_keyword reserved
  · exact writes_sign sign

end Extent

def visibleKinds (tokens : List Token) : List TokenKind :=
  (tokens.filter fun t => !t.isHidden && t.kind != .eof).map (·.kind)

/-- The characters are read as visible tokens of these kinds, wherever they stand. -/
def Reads (cs : List Char) (kinds : List TokenKind) : Prop :=
  ∀ place index, visibleKinds (lexFrom place index cs) = kinds

theorem reads_nil : Reads [] [] := by
  intro place index
  rw [lexFrom]
  rfl

theorem Reads.token (later : Reads rest kinds) (writes : Writes k w) (shown : k.isHidden = false)
    (separated : Separated rest) : Reads (w ++ rest) (k :: kinds) := by
  obtain ⟨c, w, rfl, extents⟩ := writes
  intro place index
  have other := (scan_extent c (w ++ rest)).kind_ne_eof
  rw [extents rest separated] at other
  rw [List.cons_append, lexFrom]
  simp only [extents rest separated, List.drop_left]
  rw [visibleKinds, List.filter_cons_of_pos, List.map_cons]
  · exact congrArg (k :: ·) (later _ _)
  · simp [Token.isHidden, Channel.ofKind, shown, other]

/-- A space that no blank follows is skipped. -/
theorem Reads.space (later : Reads rest kinds) (solid : ∀ d ∈ rest.head?, isBlank d = false) :
    Reads (' ' :: rest) kinds := by
  intro place index
  have alone : extent ' ' rest = (.whitespace, 0) :=
    congrArg (TokenKind.whitespace, ·) (runLength_append (List.forall_mem_nil _) solid)
  rw [lexFrom]
  simp only [alone, List.drop_zero]
  rw [visibleKinds, List.filter_cons_of_neg]
  · exact later _ _
  · simp [Token.isHidden, Channel.ofKind, TokenKind.isHidden]

theorem Writes.solid (writes : Writes k w) (shown : k.isHidden = false) (rest : List Char) :
    ∀ d ∈ (w ++ rest).head?, isBlank d = false := by
  obtain ⟨c, w, rfl, extents⟩ := writes
  intro d first
  obtain rfl := Option.some.inj first
  have scan := scan_extent c (w ++ [])
  rw [extents [] separated_nil] at scan
  by_contra blank
  obtain rfl := scan.whitespace_iff.mpr (by simpa using blank)
  cases shown

theorem shown_of_spelling {word : String} (spelled : k.spelling? = some word) :
    k.isHidden = false := by
  rw [Bool.eq_false_iff]
  intro hidden
  cases k <;> cases hidden <;> cases spelled

theorem intercalate_starts (s x : String) (xs : List String) :
    ∃ more, (s.intercalate (x :: xs)).toList = x.toList ++ more := by
  cases xs with
  | nil => exact ⟨[], by rw [String.intercalate_singleton, List.append_nil]⟩
  | cons y ys =>
    rw [String.intercalate_cons_cons, String.append_assoc, String.toList_append]
    exact ⟨_, rfl⟩

/-- A row of spellings with a space between two is read as the row of its kinds; kinds without a
spelling are left out. -/
theorem reads_spaced {word : String} (spelled : k.spelling? = some word) (others : List TokenKind)
    (later : Reads rest kinds) (separated : Separated rest) :
    Reads ((" ".intercalate ((word :: others.filterMap (·.spelling?)).map upper)).toList ++ rest)
      (k :: others.filter (·.spelling?.isSome) ++ kinds) := by
  induction others generalizing k word with
  | nil =>
    rw [List.filterMap_nil, List.map_singleton, String.intercalate_singleton]
    exact later.token (writes_spelling spelled) (shown_of_spelling spelled) separated
  | cons next others ih =>
    cases found : next.spelling? with
    | none =>
      rw [List.filterMap_cons_none found, List.filter_cons_of_neg (by simp [found])]
      exact ih spelled
    | some following =>
      have tail := ih found
      have solid : ∀ d ∈ ((" ".intercalate ((following :: others.filterMap (·.spelling?)).map
          upper)).toList ++ rest).head?, isBlank d = false := by
        obtain ⟨more, starts⟩ := intercalate_starts " " (upper following)
          ((others.filterMap (·.spelling?)).map upper)
        rw [List.map_cons, starts, List.append_assoc]
        exact (writes_spelling found).solid (shown_of_spelling found) _
      rw [List.filterMap_cons_some found, List.filter_cons_of_pos (by simp [found]), List.map_cons,
        List.map_cons, String.intercalate_cons_cons, ← List.map_cons, String.append_assoc,
        String.toList_append, String.toList_append, List.append_assoc, List.append_assoc]
      exact (tail.space solid).token (writes_spelling spelled) (shown_of_spelling spelled)
        (separated_cons (by decide))

end Lexer

end SoqlAssist
