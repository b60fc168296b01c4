import SoqlAssist.Proofs.Grammar.Completeness
import SoqlAssist.Proofs.Grammar.Soundness
import SoqlAssist.Proofs.Query.Reader

/-!
What a parse accepts. A stream is parsed without a syntax error exactly when the kinds of its
visible tokens, up to the first `eof` among them, are a word of the query language. Whether a query
is enclosed in parentheses matters to a filter at its end and to nothing else.
-/
namespace SoqlAssist

open Grammar

namespace Parse

theorem shown_kinds (tokens : TokenStream) :
    (Outline.ofTokens tokens).shown.map (·.2) =
      ((tokens.toList.filter (!·.isHidden)).map (·.kind)).takeWhile (· != .eof) := by
  rw [← visible_kinds 0, List.takeWhile_map]
  rfl

/-- The reader never meets `eof` among the kinds that it is given. -/
theorem eof_not_mem_shown (tokens : TokenStream) :
    .eof ∉ (Outline.ofTokens tokens).shown.map (·.2) := by
  rw [shown_kinds]
  intro member
  have other := List.all_eq_true.mp List.all_takeWhile _ member
  exact absurd other (by decide)

theorem problems_eq_nil_iff {mark : Option Nat} {ending : Nat} {positions : List Nat}
    {events : List Event} :
    (place mark ending positions events).filterMap Placed.problem? = [] ↔ Clean events := by
  induction events generalizing positions with
  | nil => simp [place]
  | cons event events ih =>
    cases event with
    | enter rule => simpa [place, Placed.problem?] using ih
    | token =>
      cases positions with
      | nil => simpa [place] using ih
      | cons p ps => simpa [place, Placed.problem?] using ih
    | endMark =>
      cases mark with
      | none => simpa [place] using ih
      | some m => simpa [place, Placed.problem?] using ih
    | leave => simpa [place, Placed.problem?] using ih
    | problem p => simp [place, Placed.problem?]

theorem firstPerPosition_eq_nil_iff {α : Type} {found : List (Nat × α)} :
    firstPerPosition none found = [] ↔ found = [] := by
  cases found with
  | nil => simp [firstPerPosition]
  | cons entry found => simp [firstPerPosition]

end Parse

open Parse

theorem errors_eq_nil_iff_clean (tokens : TokenStream) :
    (parseTokens tokens).errors = [] ↔
      Clean (events ((Outline.ofTokens tokens).shown.map (·.2))) := by
  simp only [errors_parseTokens, List.map_eq_nil_iff, firstPerPosition_eq_nil_iff, trace,
    problems_eq_nil_iff]

namespace Grammar

open Pattern

section Enclosed

variable {enclosed : Bool} {word : List TokenKind}

/-- Whatever a balanced word begins with is an open filter. -/
theorem openFilter_of_append {word rest : List TokenKind}
    (balanced : Derives (.ref .balanced) (word ++ rest)) :
    Derives (.ref (.filter false)) word := by
  rcases Derives.many_iff.mp (Derives.ref_iff.mp balanced) with
    empty | ⟨first, later, split, head, more⟩
  · obtain ⟨rfl, -⟩ := List.append_eq_nil_iff.mp empty
    exact openFilter_nil
  have whole : Derives (.ref .balanced) first := by
    rw [← List.append_nil first]
    exact .ref (.manyCons head .manyNil)
  simp only [Derives.alt_cons_iff, Derives.alt_nil_iff, or_false, Derives.any_iff,
    Derives.parens_iff] at head
  have nonempty : 0 < first.length := by
    rcases head with ⟨k, _, rfl⟩ | ⟨inside, rfl, _⟩ <;> simp
  rcases List.append_eq_append_iff.mp split with ⟨cut, same, _⟩ | ⟨cut, rfl, same⟩
  · cases word with
    | nil => exact openFilter_nil
    | cons k word =>
      rcases head with ⟨_, _, rfl⟩ | ⟨inside, rfl, body⟩
      · obtain ⟨rfl, none⟩ := List.cons.inj same
        obtain ⟨rfl, -⟩ := List.append_eq_nil_iff.mp none.symm
        exact openFilter_of_balanced whole
      -- The word ends between the parentheses or behind both.
      · rw [List.cons_append, List.cons.injEq] at same
        obtain ⟨rfl, same⟩ := same
        rcases List.append_eq_append_iff.mp same with ⟨closing, rfl, last⟩ | ⟨gap, rfl, _⟩
        · cases closing with
          | nil =>
            rw [List.append_nil]
            exact openFilter_open (openFilter_of_balanced body)
          | cons c closing =>
            obtain ⟨rfl, none⟩ := List.cons.inj last
            obtain ⟨rfl, -⟩ := List.append_eq_nil_iff.mp none.symm
            exact openFilter_of_balanced whole
        · exact openFilter_open (openFilter_of_append body)
  · have behind : Derives (.ref .balanced) (cut ++ rest) := by
      rw [← same]
      exact .ref more
    exact openFilter_append whole (openFilter_of_append behind)
termination_by word.length
decreasing_by
  all_goals
    simp only [*, List.length_append, List.length_cons]
    omega

/-- An open filter can be closed. -/
theorem openFilter_closed {word : List TokenKind} (derives : Derives (.ref (.filter false)) word) :
    ∃ rest, Derives (.ref .balanced) (word ++ rest) := by
  obtain ⟨balanced, opened, rfl, body, tail⟩ :=
    Derives.seq_cons_iff.mp (Derives.ref_iff.mp derives)
  rcases Derives.opt_iff.mp (Derives.seq_singleton_iff.mp tail) with rfl | deeper
  · exact ⟨[], by simpa using body⟩
  · obtain ⟨inside, rfl, filter⟩ := Derives.seq_tok_cons_iff.mp deeper
    obtain ⟨rest, closed⟩ := openFilter_closed (Derives.seq_singleton_iff.mp filter)
    refine ⟨rest ++ [.rParen], ?_⟩
    simpa using balanced_append body (balanced_parens closed)
termination_by word.length
decreasing_by
  simp only [*, List.length_append, List.length_cons]
  omega

/-- The filters of a query on its own are what those of an enclosed query begin with. -/
theorem openFilter_iff : Derives (.ref (.filter false)) word ↔
    ∃ rest, Derives (.ref (.filter true)) (word ++ rest) := by
  have closed {word} : Derives (.ref (.filter true)) word ↔ Derives (.ref .balanced) word :=
    Derives.ref_iff
  simp only [closed]
  exact ⟨openFilter_closed, fun ⟨_, balanced⟩ => openFilter_of_append balanced⟩

/-- A clause that is not enclosed is one that may be, or a filter that leaves parentheses open. -/
theorem clause_cases (derives : Derives (.ref (.clause false)) word) :
    Derives (.ref (.clause true)) word ∨
      ∃ filter, word = .WITH :: filter ∧ Derives (.ref (.filter false)) filter := by
  rw [Derives.ref_iff] at derives ⊢
  simp only [Phrase.rule, Derives.alt_cons_iff] at derives ⊢
  rcases derives with derives | derives | derives | derives
  · exact .inl (.inl derives)
  · exact .inl (.inr (.inl derives))
  · obtain ⟨filter, rfl, opened⟩ := Derives.seq_tok_cons_iff.mp derives
    exact .inr ⟨filter, rfl, Derives.seq_singleton_iff.mp opened⟩
  · exact .inl (.inr (.inr (.inr derives)))

theorem clauses_open (derives : Derives (clauses true) word) : Derives (clauses false) word := by
  rcases Derives.opt_iff.mp derives with rfl | derives
  · exact .manyNil
  · obtain ⟨front, last, rfl, middle, final⟩ := Derives.seq_cons_iff.mp derives
    have clause := clause_open (Derives.seq_singleton_iff.mp final)
    refine middle.many_append ?_
    rw [← List.append_nil last]
    exact .manyCons clause .manyNil

/-- The clauses of a query on its own are those of an enclosed query, or the last of them is a
filter. -/
theorem clauses_iff_enclosed : Derives (clauses false) word ↔ Derives (clauses true) word ∨
    ∃ front filter, word = front ++ .WITH :: filter ∧ Derives (clauses false) front ∧
      Derives (.ref (.filter false)) filter := by
  constructor
  · intro derives
    rcases derives.many_last with rfl | ⟨front, last, rfl, middle, final⟩
    · exact .inl .optNone
    · rcases clause_cases final with enclosed | ⟨filter, rfl, opened⟩
      · exact .inl (.optSome (.andThen middle (Derives.seq_singleton_iff.mpr enclosed)))
      · exact .inr ⟨front, filter, rfl, middle, opened⟩
  · rintro (enclosed | ⟨front, filter, rfl, middle, opened⟩)
    · exact clauses_open enclosed
    · refine middle.many_append ?_
      rw [← List.append_nil (_ :: _)]
      have clause : Derives (.ref (.clause false)) (.WITH :: filter) :=
        .ref (.choice (by simp) (.tokThen (Derives.seq_singleton_iff.mpr opened)))
      exact .manyCons clause .manyNil

/-- What a query has before its clauses. -/
def Phrase.core : Pattern :=
  seq [tok .SELECT, listOf (.ref .column), tok .FROM, listOf (.ref .object)]

theorem query_iff_core : Derives (.ref (.query enclosed)) word ↔
    ∃ core tail, word = core ++ tail ∧ Derives Phrase.core core ∧
      Derives (clauses enclosed) tail := by
  have rule : (Phrase.query enclosed).rule =
      seq ([tok .SELECT, listOf (.ref .column), tok .FROM, listOf (.ref .object)] ++
        [clauses enclosed]) := rfl
  rw [Derives.ref_iff, rule, Derives.seq_append_iff]
  simp only [Derives.seq_singleton_iff, Phrase.core]

/-- A query on its own is what may be enclosed, or a query and a filter that may leave parentheses
open: the one difference between the two is a filter at the end. -/
theorem query_iff_enclosed : Derives (.ref (.query false)) word ↔
    Derives (.ref (.query true)) word ∨
      ∃ front filter, word = front ++ .WITH :: filter ∧ Derives (.ref (.query false)) front ∧
        Derives (.ref (.filter false)) filter := by
  simp only [query_iff_core]
  constructor
  · rintro ⟨core, tail, rfl, head, derives⟩
    rcases clauses_iff_enclosed.mp derives with enclosed | ⟨front, filter, rfl, middle, opened⟩
    · exact .inl ⟨core, tail, rfl, head, enclosed⟩
    · exact .inr ⟨core ++ front, filter, by simp, ⟨core, front, rfl, head, middle⟩, opened⟩
  · rintro (⟨core, tail, rfl, head, derives⟩ |
      ⟨_, filter, rfl, ⟨core, front, rfl, head, middle⟩, opened⟩)
    · exact ⟨core, tail, rfl, head, clauses_open derives⟩
    · refine ⟨core, front ++ .WITH :: filter, by simp, head, ?_⟩
      exact clauses_iff_enclosed.mpr (.inr ⟨front, filter, rfl, middle, opened⟩)

end Enclosed

end Grammar

/-- Parsing records no error exactly on the words of the query language. A query that stands in
parentheses among the columns is an enclosed one. It differs from a query on its own in nothing but
a filter at its end, as `query_iff_enclosed` and `openFilter_iff` say: there a parenthesis that the
filter opened would be closed by that of the query. -/
theorem parse_accepts_iff (tokens : TokenStream) :
    (parseTokens tokens).errors = [] ↔
      Derives (.ref (.query false))
        (((tokens.toList.filter (!·.isHidden)).map (·.kind)).takeWhile (· != .eof)) := by
  rw [errors_eq_nil_iff_clean, ← shown_kinds]
  constructor
  · exact derives_of_clean (eof_not_mem_shown tokens)
  · exact clean_of_derives

end SoqlAssist
