import SoqlAssist.Proofs.Grammar.Recovery
import SoqlAssist.Proofs.Query.Condition
import SoqlAssist.Proofs.Query.Ending
import SoqlAssist.Proofs.Query.Progress

/-!
Where reading goes on behind a problem. A word that opens a clause and does nothing else opens its
clause unless a token before it was left over. What is left over stands right below the root: from
the first token at which the clauses of the query cannot go on, everything up to the end.
-/
namespace SoqlAssist

open Grammar Parse

/-- A tree of a row that stands for a token is among its labels. -/
theorem Forest.Lodged.mem_labels_token {t : Tree} {kind : Nat → TokenKind} {F : Forest}
    {parent : Option Nat} {i n p : Nat} (lodged : F.Lodged t.nodes parent i)
    (member : n ∈ F.roots i) (token : t.token? n = some p) : .token (kind p) ∈ F.labels kind := by
  induction F generalizing i with
  | nil => exact absurd member List.not_mem_nil
  | leaf q next ih =>
    rcases List.mem_cons.mp member with rfl | member
    · obtain rfl := Option.some.inj (lodged.token_leaf.symm.trans token)
      exact List.mem_cons_self
    · exact List.mem_cons_of_mem _ (ih lodged.2 member)
  | node r s below next _ ih =>
    rcases List.mem_cons.mp member with rfl | member
    · exact absurd token (by simp [lodged.holds.token])
    · exact List.mem_cons_of_mem _ (ih lodged.2.2 member)

namespace Tree

/-- The token is left over behind the query. -/
def Stranded (t : Tree) (z : Nat) : Prop :=
  ∃ n, t.token? n = some z ∧ t.parent? n = some 0

def Opens (t : Tree) (c : Rule) (i : Nat) : Prop :=
  ∃ n, t.rule? n = some c ∧ t.start? n = some i ∧ (t.child? n 0).bind t.token? = some i

theorem Planted.token_inj {t : Tree} {F : Forest} {limit m n p : Nat} (planted : t.Planted F limit)
    (first : t.token? m = some p) (second : t.token? n = some p) : m = n := by
  rcases Nat.lt_trichotomy m n with lt | same | lt
  · exact absurd (planted.token_lt lt first second) (Nat.lt_irrefl p)
  · exact same
  · exact absurd (planted.token_lt lt second first) (Nat.lt_irrefl p)

theorem Planted.opens {t : Tree} {kind : Nat → TokenKind} {F below : Forest} {limit a s n i : Nat}
    {r c : Rule} (planted : t.Planted F limit) (held : t.Holds a r s below)
    (headed : Headed r (below.labels kind)) (child : n ∈ below.roots (a + 1))
    (token : t.token? n = some i) (opens : clauseOf (kind i) = some c) : t.Opens c i := by
  have other {labels : List Label} (plain : Plain labels) : .token (kind i) ∉ labels := by
    intro member
    exact absurd (opens.symm.trans (plain _ member)) (by simp)
  rcases headed with plain | ⟨k, tail, labels, clause, plain⟩
  · exact absurd (held.2.mem_labels_token child token) (other plain)
  obtain ⟨p, next, rfl, kind_p, rest⟩ := Forest.labels_eq_token labels
  rcases List.mem_cons.mp child with rfl | later
  · obtain rfl := Option.some.inj (held.2.token_leaf.symm.trans token)
    rw [kind_p, clause, Option.some.injEq] at opens
    obtain rfl := opens
    have within := planted.within held
    refine ⟨a, held.rule, ?_, ?_⟩
    · rw [planted.start_eq (by omega), tokensFrom_split (Nat.le_succ a) (by omega)]
      simp [tokensFrom_token (lt_size_of_token token) token, held.token]
    · rw [child?, held.children]
      exact token
  · have behind : Plain (next.labels kind) := rest ▸ plain
    exact absurd (held.2.2.mem_labels_token later token) (other behind)

namespace Regular

variable {t : Tree} {kind : Nat → TokenKind} {start first limit i z : Nat} {body rest : Forest}
  {c : Rule}
  (regular : t.Regular kind (.node .query start (.node .innerQuery first body rest) .nil) limit)

include regular

theorem stranded_iff : t.Stranded z ↔ z ∈ rest.leaves := by
  have lodged := regular.lodged.2.1.2.2
  obtain ⟨_, labels, tokens⟩ := regular.shaped.1
  obtain ⟨-, rfl⟩ := List.cons.inj labels
  rw [← lodged.filterMap_token, List.mem_filterMap]
  constructor
  · rintro ⟨n, token, parent⟩
    refine ⟨n, ?_, token⟩
    obtain ⟨r, s, below, held, child⟩ := regular.mem_roots_of_parent parent
    obtain rfl := held.unique regular.lodged.holds
    rcases List.mem_cons.mp child with rfl | later
    · exact absurd token (by simp [regular.lodged.2.1.holds.token])
    · exact List.mem_range'_1.mpr (Forest.mem_roots later)
  · rintro ⟨n, member, token⟩
    obtain ⟨lower, upper⟩ := List.mem_range'_1.mp member
    exact ⟨n, token, (lodged.tokens_only tokens lower upper).1⟩

/-- Within the query, a word that opens a clause is the first token of that clause. -/
theorem opens_of_mem
    (opened : Opened kind (.node .query start (.node .innerQuery first body rest) .nil))
    (member : i ∈ body.leaves) (opens : clauseOf (kind i) = some c) : t.Opens c i := by
  have query := regular.lodged.2.1.holds
  obtain ⟨n, lower, upper, token⟩ := (Planted.mem_leaves query).mp member
  rcases query.2.child_of lower (by omega) with root | ⟨a, r, s, below, held, child, every⟩
  · rcases opened.2.1.1 with document | headed
    · exact absurd document (by simp)
    · exact regular.opens query headed root token opens
  · rcases every _ opened.2.1.2.1 with rfl | headed
    -- The document is right above the query and its leftovers only.
    · obtain rfl := regular.zero_of_query held.rule
      obtain rfl := held.unique regular.lodged.holds
      rcases List.mem_cons.mp child with rfl | later
      · omega
      · have beyond := Forest.mem_roots later
        omega
    · exact regular.opens held headed child token opens

theorem not_stranded (opens : t.Opens c i) (inner : c ≠ .query) : ¬ t.Stranded i := by
  rintro ⟨m, token, parent⟩
  obtain ⟨n, rule, _, first⟩ := opens
  obtain ⟨child, found, token'⟩ := Option.bind_eq_some_iff.mp first
  obtain ⟨s, below, held, _, _⟩ := regular.holds rule
  obtain rfl := regular.token_inj token token'
  have below : t.parent? m = some n := by
    apply held.2.parent_root
    rw [← held.children]
    exact List.mem_of_getElem? found
  obtain rfl := Option.some.inj (parent.symm.trans below)
  exact inner (Option.some.inj (rule.symm.trans regular.rule_zero))

theorem opens_iff
    (opened : Opened kind (.node .query start (.node .innerQuery first body rest) .nil))
    (read : i ∈ body.leaves ++ rest.leaves) (opens : clauseOf (kind i) = some c) :
    t.Opens c i ↔ ¬ t.Stranded i := by
  constructor
  · intro head
    apply regular.not_stranded head
    rintro rfl
    revert opens
    cases kind i <;> simp [clauseOf]
  · intro kept
    rw [regular.stranded_iff] at kept
    exact regular.opens_of_mem opened ((List.mem_append.mp read).resolve_right kept) opens

end Regular

end Tree

section Texts

variable {text : String} {i : Nat}

theorem mem_cons_iff_le {front back : List Nat} {j z : Nat}
    (sorted : (front ++ z :: back).Pairwise (· < ·)) (member : j ∈ front ++ z :: back) :
    j ∈ z :: back ↔ z ≤ j := by
  obtain ⟨_, behind, apart⟩ := List.pairwise_append.mp sorted
  constructor
  · intro listed
    rcases List.mem_cons.mp listed with rfl | later
    · exact Nat.le_refl j
    · exact Nat.le_of_lt (List.rel_of_pairwise_cons behind later)
  · intro le
    apply (List.mem_append.mp member).resolve_left
    intro before
    exact absurd (apart j before z List.mem_cons_self) (Nat.not_lt.mpr le)

/-- The tree of a parse: a query whose clauses end at a token that opens none, and all that the
reader has left behind it. -/
theorem parse_resumes (tokens : TokenStream) : ∃ start first body rest,
    let F := .node .query start (.node .innerQuery first body rest) .nil
    (parseTokens tokens).tree.Regular tokens.kindAt F tokens.size ∧ Opened tokens.kindAt F ∧
      body.leaves ++ rest.leaves = (Outline.ofTokens tokens).positions ∧
      rest.leaves =
        (Reader.behindQuery tokens).ahead ++ (Outline.ofTokens tokens).mark.toList ∧
      (Reader.behindQuery tokens).peek ∉ clauseKinds := by
  obtain ⟨start, below, _, grows, read, planted⟩ := parse_planted tokens
  have resumes := grows_query (fun _ _ _ _ => resumes_of_made) grows
  have spaced := grows_query (fun _ _ _ _ => spaced_of_made) grows
  have made := made_query
    (P := fun g s F s' => Resumes (.ofTokens tokens) g s F s' ∧ Reader.Reaches tokens g s F s')
    (fun _ _ _ _ made => ⟨resumes_of_made (made.mono fun _ _ _ _ known => known.1),
      Reader.reaches_of_made (made.mono fun _ _ _ _ known => known.2)⟩) grows
  obtain ⟨_, query, rest, s, same, reaches, labels, _, left, stopped⟩ :=
    query_leftover (unmarked_shown tokens) made
  obtain ⟨rfl, rfl⟩ : start = _ ∧ below = query ++ rest := by
    simpa using same
  obtain ⟨first, body, next, rfl, empty⟩ := Forest.labels_eq_rule labels
  obtain rfl := Forest.labels_eq_nil empty
  obtain rfl := Reader.ahead_behindQuery reaches
  have reads := Reader.reads_behindQuery tokens
  refine ⟨start, first, body, rest, ?_, resumes.opened, ?_, left, ?_⟩
  · exact ⟨planted, ⟨_, _, rfl⟩, resumes.conforms.nested, resumes.conforms.shaped, spaced⟩
  · rw [← read]
    simp [Forest.leaves]
  · rw [Reader.peek_ahead reads.settled, reads.same]
    exact stopped

theorem mem_positions_tokenize (shown : (tokenize text).Shows i) :
    i ∈ (Outline.ofTokens (tokenize text)).positions := by
  obtain ⟨e, n, size, last, token⟩ := exists_eof text
  obtain ⟨_, before⟩ := mem_positions.mp (mem_positions_iff_token.mpr ⟨n, token⟩)
  have within : i < e + 1 := by
    obtain ⟨t, found, _⟩ := shown
    rw [← size]
    exact (Array.getElem?_eq_some_iff.mp found).1
  refine mem_positions.mpr ⟨shown, ?_⟩
  intro j lt seen
  exact before j (by omega) seen

/-- Of a text something is left over, the end at least; it begins where the reader stands behind the
query. -/
theorem first_leftover {start first : Nat} {body rest : Forest}
    (regular : (parse text).tree.Regular (tokenize text).kindAt
      (.node .query start (.node .innerQuery first body rest) .nil) (tokenize text).size)
    (left : rest.leaves = (Reader.behindQuery (tokenize text)).ahead ++
      (Outline.ofTokens (tokenize text)).mark.toList) :
    ∃ tail, rest.leaves = (Reader.behindQuery (tokenize text)).position :: tail := by
  obtain ⟨e, n, _, last, token⟩ := exists_eof text
  have ended : e ∈ rest.leaves := regular.stranded_iff.mp ⟨n, token, parent_eof token last⟩
  cases split : rest.leaves with
  | nil =>
    rw [split] at ended
    exact absurd ended List.not_mem_nil
  | cons z tail =>
    rw [Reader.position_of_ahead (Reader.reads_behindQuery _) (left.symm.trans split)]
    exact ⟨tail, rfl⟩

/-- The reader has read the query of a text when it comes to a token that opens no clause. That
token and all behind it are left over, and a word that does nothing but open a clause opens it if
and only if it comes before. -/
theorem resumes_behindQuery (text : String) :
    let tokens := tokenize text
    let t := (parse text).tree
    let r := Reader.behindQuery tokens
    tokens.Shows r.position ∧ tokens.kindAt r.position ∉ clauseKinds ∧
      (∀ j, tokens.Shows j → (t.Stranded j ↔ r.position ≤ j)) ∧
      ∀ i c, tokens.Shows i → clauseOf (tokens.kindAt i) = some c →
        (t.Opens c i ↔ i < r.position) := by
  intro tokens t r
  obtain ⟨start, first, body, rest, regular, opened, read, left, stopped⟩ :=
    parse_resumes (tokenize text)
  obtain ⟨tail, split⟩ := first_leftover regular left
  have seen : tokens.Shows r.position := by
    have listed : r.position ∈ (Outline.ofTokens tokens).positions := by
      rw [← read, split]
      exact List.mem_append_right _ List.mem_cons_self
    exact (mem_positions.mp listed).1
  have other : tokens.kindAt r.position ∉ clauseKinds := by
    rwa [Reader.peek, (Reader.reads_behindQuery tokens).same] at stopped
  have within {j : Nat} (shown : tokens.Shows j) : j ∈ body.leaves ++ rest.leaves := by
    rw [read]
    exact mem_positions_tokenize shown
  have sorted := pairwise_positions tokens
  rw [← read, split] at sorted
  have stranded (j : Nat) (shown : tokens.Shows j) : t.Stranded j ↔ r.position ≤ j := by
    refine regular.stranded_iff.trans ?_
    have listed := within shown
    rw [split] at listed ⊢
    exact mem_cons_iff_le sorted listed
  refine ⟨seen, other, stranded, ?_⟩
  intro i c shown opens
  rw [← Nat.not_le, ← stranded i shown]
  exact regular.opens_iff opened (within shown) opens

/-- Reading a text stops at a token that opens no clause. That token and all behind it are left
over, and a word that does nothing but open a clause opens it if and only if it comes before. Where
this is depends on the tokens alone: it is where the reader stands behind the query, and unless it
is the end, the last error is there, by `resumes_behindQuery` and `Reader.last_error`. -/
theorem clauses_resume (text : String) :
    let tokens := tokenize text
    let t := (parse text).tree
    ∃ z, tokens.Shows z ∧ tokens.kindAt z ∉ clauseKinds ∧
      (∀ j, tokens.Shows j → (t.Stranded j ↔ z ≤ j)) ∧
      ∀ i c, tokens.Shows i → clauseOf (tokens.kindAt i) = some c → (t.Opens c i ↔ i < z) :=
  ⟨_, resumes_behindQuery text⟩

def missingNames : String := "SELECT FROM WHERE x"

/-- The condition of the text is read although two names are missing before it. -/
theorem clauses_resume_missingNames :
    let tokens := tokenize missingNames
    let t := (parse missingNames).tree
    t.Opens .whereClause 4 ∧ ∃ z, 4 < z ∧ tokens.kindAt z ∉ clauseKinds ∧
      ∀ j, tokens.Shows j → (t.Stranded j ↔ z ≤ j) := by
  have values : (let t := (parse missingNames).tree
      (t.rule? 7, t.start? 7, (t.child? 7 0).bind t.token?, (tokenize missingNames)[4]?)) =
        (some .whereClause, some 4, some 4, some ⟨.WHERE, "WHERE", 4, 1, 12, .visible⟩) := by cbv
  simp only [Prod.mk.injEq] at values
  obtain ⟨rule, start, head, found⟩ := values
  have opens : (parse missingNames).tree.Opens .whereClause 4 := ⟨7, rule, start, head⟩
  have kind : (tokenize missingNames).kindAt 4 = .WHERE := by rw [TokenStream.kindAt, found]
  obtain ⟨z, _, other, stranded, resume⟩ := clauses_resume missingNames
  have before := (resume 4 .whereClause ⟨_, found, rfl⟩ (by rw [kind]; rfl)).mp opens
  exact ⟨opens, z, before, other, stranded⟩

/-- A word opens its clause if no error is recorded before it. -/
theorem opens_of_no_error {c : Rule} (shown : (tokenize text).Shows i)
    (opens : clauseOf ((tokenize text).kindAt i) = some c)
    (quiet : ∀ e ∈ (parse text).errors, i ≤ e.position) : (parse text).tree.Opens c i := by
  obtain ⟨seen, other, _, resumes⟩ := resumes_behindQuery text
  apply (resumes i c shown opens).mpr
  apply Nat.lt_of_not_le
  intro behind
  have listed : (tokenize text).kindAt i ∈ clauseKinds := by
    revert opens
    cases (tokenize text).kindAt i <;> simp [clauseOf, clauseKinds]
  have before : (Reader.behindQuery (tokenize text)).position < i := by
    apply Nat.lt_of_le_of_ne behind
    rintro same
    exact other (same ▸ listed)
  have more : (Reader.behindQuery (tokenize text)).peek ≠ .eof := by
    rw [Reader.peek, (Reader.reads_behindQuery _).same]
    exact (mem_positions.mp (mem_positions_tokenize shown)).2 _ before seen
  obtain ⟨e, last, place⟩ := Option.map_eq_some_iff.mp (Reader.last_error more)
  have member : e ∈ (parse text).errors := List.mem_of_getLast? last
  exact absurd (quiet e member) (by omega)

def strayName : String := "SELECT Id FROM Account a b WHERE Name = 'y'"

/-- The condition of the text, outside any parentheses, is left over. -/
theorem clauses_end_strayName :
    let tokens := tokenize strayName
    let t := (parse strayName).tree
    tokens[0]? = some ⟨.SELECT, "SELECT", 0, 1, 0, .visible⟩ ∧
      tokens[12]? = some ⟨.WHERE, "WHERE", 12, 1, 27, .visible⟩ ∧
      (∀ j < 12, tokens.kindAt j ∉ [.lParen, .rParen]) ∧ ¬ t.Opens .whereClause 12 := by
  have values : (let tokens := tokenize strayName
      (tokens[0]?, tokens[12]?,
        (List.range 12).all fun j => !([.lParen, .rParen].contains (tokens.kindAt j)))) =
        (some ⟨.SELECT, "SELECT", 0, 1, 0, .visible⟩,
          some ⟨.WHERE, "WHERE", 12, 1, 27, .visible⟩, true) := by cbv
  have absent : (parse strayName).tree.ruleNodes.any (·.2 == .whereClause) = false := by cbv
  simp only [Prod.mk.injEq, List.all_eq_true, List.mem_range] at values
  obtain ⟨first, word, outside⟩ := values
  refine ⟨first, word, fun j lt => by simpa using outside j lt, ?_⟩
  rintro ⟨n, rule, _⟩
  obtain ⟨F, regular⟩ := parse_regular (tokenize strayName)
  have listed := (regular.mem_ruleNodes n .whereClause).mpr rule
  exact absurd rfl (List.any_eq_false.mp absent _ listed)

end Texts

end SoqlAssist
