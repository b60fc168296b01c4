import SoqlAssist.Proofs.Token.Stream

/-!
Where the tokens of a text stand. The column of a token is that of the document. Its line is too,
unless a string before it takes the first half of a pair `\r\n` behind a backslash: the other half
then counts again for all that follows. A token ends where the next one starts, unless it is a
string that holds a break: only hidden tokens are taken to span lines.
-/
namespace SoqlAssist

open Text Lexer

variable {text : String} {k : Nat} {a b t : Token}

theorem tokenize_place (found : (tokenize text)[k]? = some t) :
    (⟨t.line, t.column⟩ : Place) =
      ((tokenize text).textsBefore k).foldl Place.advance .origin := by
  obtain ⟨rest, lexed, _⟩ := tokenize_at found
  obtain ⟨_, line, column, _⟩ := lexFrom_cons lexed.symm
  rw [line, column]

/-- A pair is torn between two neighbours only if the first is a string. -/
theorem string_of_torn_pair (first : (tokenize text)[k]? = some a)
    (second : (tokenize text)[k + 1]? = some b) (torn : Torn a.text.toList b.text.toList) :
    a.kind = .string := by
  obtain ⟨c, rest, n, scan, chars, tail⟩ := tokenize_pair first second
  refine scan.string_of_torn ⟨by rw [← chars]; exact torn.1, ?_⟩
  obtain ⟨_, _, _, _, ⟨_, _, empty, _⟩ | ⟨d, left, m, behind, _, chars', _⟩⟩ :=
    lexFrom_cons tail.symm
  · exact absurd torn.2 (by simp [empty])
  · rw [behind, ← torn.2, chars']
    rfl

theorem getElem?_textsBefore (tokens : TokenStream) (j : Nat) :
    (tokens.textsBefore k)[j]? = if j < k then tokens[j]?.map (·.text.toList) else none := by
  rw [TokenStream.textsBefore, List.getElem?_map, List.getElem?_take, Array.getElem?_toList]
  split <;> rfl

/-- No pair is torn before a position exactly if none is torn behind a string. -/
theorem tornPairs_textsBefore :
    tornPairs ((tokenize text).textsBefore k) = 0 ↔
      ∀ (j : Nat) (a b : Token), j + 1 < k → (tokenize text)[j]? = some a →
        (tokenize text)[j + 1]? = some b → a.kind = .string →
          ¬ Torn a.text.toList b.text.toList := by
  rw [tornPairs_eq_zero, List.isChain_iff_getElem]
  constructor
  · intro chain j a b lt first second _
    have here : ((tokenize text).textsBefore k)[j]? = some a.text.toList := by
      rw [getElem?_textsBefore, if_pos (by omega), first]
      rfl
    have next : ((tokenize text).textsBefore k)[j + 1]? = some b.text.toList := by
      rw [getElem?_textsBefore, if_pos lt, second]
      rfl
    obtain ⟨_, here⟩ := List.getElem?_eq_some_iff.mp here
    obtain ⟨within, next⟩ := List.getElem?_eq_some_iff.mp next
    rw [← here, ← next]
    exact chain j within
  · intro whole j within
    have here := List.getElem?_eq_getElem (Nat.lt_of_succ_lt within)
    have next := List.getElem?_eq_getElem within
    rw [getElem?_textsBefore] at here next
    have before : j + 1 < k := by
      by_contra outside
      rw [if_neg outside] at next
      exact absurd next (by simp)
    rw [if_pos (by omega)] at here
    rw [if_pos before] at next
    obtain ⟨a, first, chars⟩ := Option.map_eq_some_iff.mp here
    obtain ⟨b, second, chars'⟩ := Option.map_eq_some_iff.mp next
    rw [← chars, ← chars']
    intro torn
    exact whole j a b before first second (string_of_torn_pair first second torn) torn

/-- The column of a token is its place in the document, and so is its line exactly if no string
before it tears a pair `\r\n` apart; each such string puts the line one ahead. -/
theorem tokenize_place_iff (text : String) (k : Nat) (t : Token)
    (found : (tokenize text)[k]? = some t) :
    let texts := (tokenize text).textsBefore k
    t.column = (lastLine texts.flatten).length ∧
      t.line = 1 + countBreaks texts.flatten + tornPairs texts ∧
      (t.line = 1 + countBreaks texts.flatten ↔
        ∀ (j : Nat) (a b : Token), j + 1 < k → (tokenize text)[j]? = some a →
          (tokenize text)[j + 1]? = some b → a.kind = .string →
            ¬ Torn a.text.toList b.text.toList) := by
  intro texts
  have filled : ∀ x ∈ texts, x ≠ [] := by
    intro x member
    obtain ⟨_, _, filled⟩ := tokenize_at found
    obtain ⟨u, listed, rfl⟩ := List.mem_map.mp member
    exact (filled u listed).2
  have place := tokenize_place found
  rw [Place.foldl_advance .origin filled, Place.advance_eq, Place.mk.injEq] at place
  obtain ⟨line, column⟩ := place
  have sum : t.line = 1 + countBreaks texts.flatten + tornPairs texts := line
  refine ⟨?_, sum, ?_⟩
  · rw [column]
    simp [Place.origin, texts]
  · have torn : tornPairs texts = 0 ↔ _ := tornPairs_textsBefore
    rw [← torn]
    omega

/-- Pairs that blanks and strings hold as a whole count once. -/
theorem tokenize_place_query :
    (tokenize "SELECT\r\n'\\\r'\r\n")[3]? = some ⟨.whitespace, "\r\n", 3, 3, 1, .hidden⟩ ∧
      (3 = 1 + countBreaks ((tokenize "SELECT\r\n'\\\r'\r\n").textsBefore 3).flatten ↔
        ∀ (j : Nat) (a b : Token), j + 1 < 3 →
          (tokenize "SELECT\r\n'\\\r'\r\n")[j]? = some a →
          (tokenize "SELECT\r\n'\\\r'\r\n")[j + 1]? = some b → a.kind = .string →
            ¬ Torn a.text.toList b.text.toList) := by
  have found : (tokenize "SELECT\r\n'\\\r'\r\n")[3]? =
      some ⟨.whitespace, "\r\n", 3, 3, 1, .hidden⟩ := by cbv
  exact ⟨found, (tokenize_place_iff _ 3 _ found).2.2⟩

/-- The string stops between `\r` and `\n`, and the pair makes two lines. -/
theorem tokenize_place_torn :
    ∃ t, (tokenize "'\\\r\nx")[2]? = some t ∧
      t.line = 2 + countBreaks ((tokenize "'\\\r\nx").textsBefore 2).flatten := by
  exact ⟨⟨.identifier, "x", 2, 3, 0, .visible⟩, by cbv, by cbv⟩

section Ends

/-- What a token's text leads to, its line breaks counted whatever its kind. -/
theorem advance_token (t : Token) : (⟨t.line, t.column⟩ : Place).advance t.text.toList =
    ⟨t.line + countBreaks t.text.toList, t.endColumn⟩ := by
  rw [Place.advance_eq, Token.endColumn]
  cases broken : t.text.toList.any isBreak with
  | true => simp
  | false => simp [broken, lastLine_of_unbroken]

theorem tokenize_next (first : (tokenize text)[k]? = some a)
    (second : (tokenize text)[k + 1]? = some b) :
    b.line = a.line + countBreaks a.text.toList ∧ b.column = a.endColumn := by
  obtain ⟨c, rest, n, _, _, tail⟩ := tokenize_pair first second
  obtain ⟨_, line, column, _⟩ := lexFrom_cons tail.symm
  rw [advance_token] at line column
  exact ⟨line, column⟩

theorem endLine_eq (first : (tokenize text)[k]? = some a)
    (second : (tokenize text)[k + 1]? = some b) :
    a.line + countBreaks a.text.toList =
      a.endLine + if a.kind = .string then countBreaks a.text.toList else 0 := by
  obtain ⟨c, rest, n, scan, chars, _⟩ := tokenize_pair first second
  rw [Token.endLine]
  by_cases literal : a.kind = .string
  · simp [literal, TokenKind.isHidden]
  rw [if_neg literal]
  cases hidden : a.kind.isHidden with
  | true => rfl
  | false =>
    have flat := scan.unbroken hidden literal
    rw [← chars] at flat
    rw [countBreaks_eq_zero.mpr flat]
    rfl

end Ends

/-- A token ends in the column of the next one, and on its line exactly if it is no string with a
line break; the breaks of a string are missing in its end. -/
theorem tokenize_end_iff (text : String) (k : Nat) (a b : Token)
    (first : (tokenize text)[k]? = some a) (second : (tokenize text)[k + 1]? = some b) :
    a.endColumn = b.column ∧
      b.line = a.endLine + (if a.kind = .string then countBreaks a.text.toList else 0) ∧
      ((a.endLine, a.endColumn) = (b.line, b.column) ↔
        ¬ (a.kind = .string ∧ a.text.toList.any isBreak = true)) := by
  obtain ⟨line, column⟩ := tokenize_next first second
  rw [endLine_eq first second] at line
  refine ⟨column.symm, line, ?_⟩
  rw [column, line, Prod.mk.injEq, and_iff_left rfl]
  by_cases literal : a.kind = .string
  · simp [literal, countBreaks_eq_zero]
  · simp [literal]

/-- A comment over two lines ends where the name behind it starts. -/
theorem tokenize_end_comment :
    (tokenize "/*\r\n*/x")[0]? = some ⟨.comment, "/*\r\n*/", 0, 1, 0, .hidden⟩ ∧
      (tokenize "/*\r\n*/x")[1]? = some ⟨.identifier, "x", 1, 2, 2, .visible⟩ ∧
      Token.endLine ⟨.comment, "/*\r\n*/", 0, 1, 0, .hidden⟩ = 2 := by
  have first : (tokenize "/*\r\n*/x")[0]? =
      some ⟨.comment, "/*\r\n*/", 0, 1, 0, .hidden⟩ := by cbv
  have second : (tokenize "/*\r\n*/x")[1]? =
      some ⟨.identifier, "x", 1, 2, 2, .visible⟩ := by cbv
  have tiled := (tokenize_end_iff _ 0 _ _ first second).2.2.mpr (by simp)
  exact ⟨first, second, congrArg Prod.fst tiled⟩

/-- A string that holds an escaped break ends on its first line, the name behind it stands on the
second. -/
theorem tokenize_end_escaped_break :
    ∃ a b, (tokenize "'\\\n'x")[0]? = some a ∧ (tokenize "'\\\n'x")[1]? = some b ∧
      (a.endLine, a.endColumn) = (1, 1) ∧ (b.line, b.column) = (2, 1) := by
  exact ⟨⟨.string, "'\\\n'", 0, 1, 0, .visible⟩, ⟨.identifier, "x", 1, 2, 1, .visible⟩,
    by cbv, by cbv, by cbv, rfl⟩

end SoqlAssist
