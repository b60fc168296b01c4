import SoqlAssist.Proofs.Query.Nesting
import SoqlAssist.Proofs.Token.Stream

/-!
Queries at the end of a text. The end hangs below the root and below no query, so the scope of a
query in parentheses stops at the last token that was taken before the end, whether the parentheses
were closed or not: where a query is still being written, the blanks behind it and the end belong to
the document's query alone.
-/
namespace SoqlAssist

open Grammar Parse SoqlAssist.Tree

/-- The tree of a whole query is a query, what stands behind it, and the mark. -/
theorem Grammar.grows_marked {R : Reading} {F : Forest} {s s' : List Nat}
    (grows : Grows R [.item (.goal .query)] s [F] s') : ∃ start query behind,
      F = .node .query start (query ++ (behind ++ R.mark.elim .nil (.leaf · .nil))) .nil := by
  refine grows_query (P := fun g _ F _ => g = .query → ∃ start query behind,
    F = .node .query start (query ++ (behind ++ R.mark.elim .nil (.leaf · .nil))) .nil) ?_ grows rfl
  rintro _ s F s' made rfl
  rw [moves_expand rfl] at made
  simp only [List.map_cons, List.map_nil, made_enter, made_goal, made_endMark, made_leave,
    made_nil] at made
  obtain ⟨_, _, rfl, query, _, _, rfl, _, behind, _, _, rfl, _, _, rfl, rfl, rfl, -⟩ := made
  exact ⟨_, query, behind, rfl⟩

section Parse

variable {tokens : TokenStream} {F : Forest} {e i m n z : Nat}

theorem parent_eof (token : (parseTokens tokens).tree.token? n = some i)
    (last : tokens.kindAt i = .eof) : (parseTokens tokens).tree.parent? n = some 0 := by
  have marked : (Outline.ofTokens tokens).mark = some i := by
    rcases List.mem_append.mp (mem_positions_iff_token.mpr ⟨n, token⟩) with shown | mark
    · obtain ⟨x, member, rfl⟩ := List.mem_map.mp shown
      obtain ⟨kind, visible⟩ := mem_shown member
      exact absurd (kind.symm.trans last) visible
    · exact Option.mem_toList.mp mark
  obtain ⟨start, below, s', grows, _, planted⟩ := parse_planted tokens
  obtain ⟨_, query, behind, same⟩ := grows_marked grows
  have lodged := planted.lodged.2.1
  rw [(Forest.node.inj same).2.2.1] at lodged
  have leaf := (Forest.Lodged.append_iff.mp (Forest.Lodged.append_iff.mp lodged).2).2
  rw [Reading.ofTokens, marked] at leaf
  -- The mark is the token of one node only.
  have other := leaf.token_leaf
  have once {m n : Nat} (first : (parseTokens tokens).tree.token? m = some i)
      (second : (parseTokens tokens).tree.token? n = some i) : ¬ m < n :=
    fun lt => Nat.lt_irrefl _ (planted.token_lt lt first second)
  rw [Nat.le_antisymm (Nat.le_of_not_lt (once other token)) (Nat.le_of_not_lt (once token other))]
  exact leaf.parent_root List.mem_cons_self

/-- Between the last token before the end and the end only the document's query covers. -/
theorem Tree.Regular.covering_behind
    (regular : (parseTokens tokens).tree.Regular tokens.kindAt F tokens.size)
    (token : (parseTokens tokens).tree.token? m = some e)
    (ending : ∀ j, e < j → tokens.Shows j → tokens.kindAt j = .eof)
    (last : (parseTokens tokens).tree.token? n = some z) (after : e < i) (before : i ≤ z) :
    ((parseTokens tokens).tree.queries.filter
      ((parseTokens tokens).tree.covers i)).reverse = [1] := by
  have later {j : Nat} (lt : e < j) : (parseTokens tokens).tree.start? 0 ≠ some j := by
    intro start
    have first := regular.start_le (Nat.zero_le m) token start
    omega
  refine covering_eq (List.pairwise_singleton _ _) fun q => ?_
  rw [List.mem_singleton]
  constructor
  · rintro rfl
    obtain ⟨s', e', start', stop, _, le⟩ := (regular.span_token regular.rule_zero last).mpr
      ⟨regular.zero_above (regular.pos_of_token last) (lt_size_of_token last), later (by omega)⟩
    have first := regular.start_le (Nat.zero_le m) token start'
    refine ⟨regular.isQuery_one, covers_iff.mpr ?_⟩
    rw [around_eq regular.first.2.1]
    exact ⟨s', e', start', stop, by omega, by omega⟩
  · rintro ⟨query, covered⟩
    obtain ⟨s', e', start', stop, after', before'⟩ := covers_iff.mp covered
    obtain ⟨a, r, parent, _, rule, _⟩ := regular.parent_query query
    obtain ⟨_, _, held, _⟩ := regular.holds rule
    obtain ⟨k, _, _, found⟩ := Planted.token_of_stop held (around_eq parent ▸ stop)
    -- A query that reaches behind `e` reaches the end, and that is covered by the first alone.
    have shown := (mem_positions.mp (mem_positions_iff_token.mpr ⟨k, found⟩)).1
    have up := parent_eof found (ending e' (by omega) shown)
    have alone := regular.covering_trailing found (later (by omega)) up
    have member : q ∈ ((parseTokens tokens).tree.queries.filter
        ((parseTokens tokens).tree.covers e')).reverse := by
      rw [List.mem_reverse, List.mem_filter, mem_queries]
      exact ⟨query, covers_iff.mpr ⟨s', e', start', stop, by omega, Nat.le_refl e'⟩⟩
    rw [alone] at member
    exact List.mem_singleton.mp member

end Parse

/-- The end of a text is its last token and stands in the tree. -/
theorem exists_eof (text : String) : ∃ z n, (parse text).tokens.size = z + 1 ∧
    (parse text).tokens.kindAt z = .eof ∧ (parse text).tree.token? n = some z := by
  obtain ⟨front, last, split, _, ⟨ending, _⟩, filled⟩ := tokenize_concat text
  have size : (tokenize text).size = front.length + 1 := by
    rw [← Array.length_toList, split, List.length_append, List.length_singleton]
  have found : (tokenize text)[front.length]? = some last := by
    rw [← Array.getElem?_toList, split, List.getElem?_concat_length]
  have kind : (tokenize text).kindAt front.length = .eof := by
    simpa [TokenStream.kindAt, found] using ending
  have shown : last.isHidden = false := by
    rw [Token.isHidden, tokenize_channel found, ending]
    rfl
  have read : front.length ∈ (Outline.ofTokens (tokenize text)).positions := by
    refine mem_positions.mpr ⟨⟨last, found, shown⟩, ?_⟩
    rintro j lt ⟨t, here, _⟩
    have listed : t ∈ front := by
      rw [← Array.getElem?_toList, split, List.getElem?_append_left lt] at here
      exact List.mem_of_getElem? here
    simpa [TokenStream.kindAt, here] using (filled t listed).1
  obtain ⟨n, token⟩ := mem_positions_iff_token.mp read
  exact ⟨front.length, n, size, kind, token⟩

theorem QueryScopes.mem_scopesAt {scopes : QueryScopes} {s : QueryScope} {i k : Nat}
    (found : scopes.get? k = some s) : s ∈ scopes.scopesAt i ↔ s.contains i = true := by
  rw [scopesAt, List.mem_reverse, List.mem_filter]
  exact and_iff_right (List.mem_of_find?_eq_some found)

/-- A query in parentheses behind which only the end is left; `e` is the last token of the node `p`
around it. -/
structure Tree.ComesLast (t : Tree) (tokens : TokenStream) (p q e : Nat) : Prop where
  parent : t.parent? q = some p
  rule : t.rule? q = some .innerQuery ∧ t.rule? p = some .selectExpr ∨
    t.rule? q = some .semiJoin ∧ t.rule? p = some .inList
  stop : t.stop? p = some e
  ending : ∀ i, e < i → tokens.Shows i → tokens.kindAt i = .eof

def Tree.Unclosed (t : Tree) (tokens : TokenStream) (p : Nat) : Prop :=
  ∀ n i, (t.children p).getLast? = some n → t.token? n = some i → tokens.kindAt i ≠ .rParen

namespace Tree.ComesLast

section

variable {t : Tree} {tokens : TokenStream} {F : Forest} {limit p q e : Nat}
  (last : t.ComesLast tokens p q e)
include last

theorem isQuery : t.isQuery q = true := by
  rcases last.rule with ⟨rule, _⟩ | ⟨rule, _⟩
  all_goals exact isQuery_of_rule rule

variable (regular : t.Regular tokens.kindAt F limit)
include regular

theorem bracketed : t.Bracketed tokens.kindAt p q := by
  rcases regular.query_cases last.isQuery with rfl | ⟨a, bracketed⟩
  · obtain rfl := Option.some.inj (regular.first.2.1.symm.trans last.parent)
    rcases last.rule with ⟨_, rule⟩ | ⟨_, rule⟩
    all_goals exact absurd (regular.rule_zero.symm.trans rule) (by simp)
  · obtain rfl := Option.some.inj (bracketed.parent.symm.trans last.parent)
    exact bracketed

/-- The node around the query starts at the opening parenthesis and ends at a token below it. -/
theorem span : (∃ o, t.start? p = some o ∧ tokens.kindAt o = .lParen) ∧
    ∃ m, t.token? m = some e ∧ p ∈ t.ancestors m := by
  obtain ⟨o, opening, opened⟩ := (last.bracketed regular).opening
  obtain ⟨r, rule⟩ : ∃ r, t.rule? p = some r := by
    rcases last.rule with ⟨_, rule⟩ | ⟨_, rule⟩
    all_goals exact ⟨_, rule⟩
  obtain ⟨_, _, held, _⟩ := regular.holds rule
  obtain ⟨m, after, within, token⟩ := Planted.token_of_stop held last.stop
  exact ⟨⟨o, regular.start_opening rule opening, opened⟩, m, token,
    (regular.mem_ancestors_iff held).mpr ⟨after, within⟩⟩

end

section Parse

variable {tokens : TokenStream} {F : Forest} {p q e : Nat}
  (last : (parseTokens tokens).tree.ComesLast tokens p q e)
  (regular : (parseTokens tokens).tree.Regular tokens.kindAt F tokens.size)
include last regular

theorem kind_ne_eof : tokens.kindAt e ≠ .eof := by
  intro ending
  obtain ⟨_, m, token, above⟩ := last.span regular
  have up := parent_eof token ending
  rw [ancestors_cons up (regular.parent_lt up)] at above
  rcases List.mem_cons.mp above with rfl | above
  · rcases last.rule with ⟨_, rule⟩ | ⟨_, rule⟩
    all_goals exact absurd (regular.rule_zero.symm.trans rule) (by simp)
  · exact absurd (lt_of_mem_ancestors above) (Nat.not_lt_zero p)

/-- The scope of the query reaches from its opening parenthesis to the last token around it. -/
theorem covered : ∃ inner, (Analysis.ofParsed (parseTokens tokens)).scopeOf? q = some inner ∧
    tokens.kindAt inner.spanStart = .lParen ∧
      ∀ i, inner ∈ (Analysis.ofParsed (parseTokens tokens)).scopesAt i ↔
        inner.spanStart < i ∧ i ≤ e := by
  obtain ⟨⟨o, start, opened⟩, _⟩ := last.span regular
  obtain ⟨inner, scope, backed⟩ := exists_scopeOf regular last.isQuery
  have spanStart := backed.spanStart
  have spanStop := backed.spanStop
  rw [around_eq last.parent, start] at spanStart
  rw [around_eq last.parent, last.stop] at spanStop
  refine ⟨inner, scope, Option.some.inj spanStart ▸ opened, fun i => ?_⟩
  obtain ⟨k, _, found⟩ := Option.bind_eq_some_iff.mp scope
  rw [Analysis.scopesAt, QueryScopes.mem_scopesAt found, QueryScope.contains, ← spanStop]
  simp

end Parse

end Tree.ComesLast

/-- A query in parentheses at the end of a text, closed or not, covers what was taken of it and
nothing behind: there, up to the end, the document's query stands alone. -/
theorem scopesAt_behind_last (text : String) (p q e : Nat)
    (last : (parse text).tree.ComesLast (parse text).tokens p q e) :
    let t := (parse text).tree
    let tokens := (parse text).tokens
    let a := Analysis.ofParsed (parse text)
    ∃ top outer inner z, t.child? 0 0 = some top ∧ a.scopeOf? top = some outer ∧
      a.scopeOf? q = some inner ∧ inner ≠ outer ∧ tokens.kindAt inner.spanStart = .lParen ∧
      tokens.size = z + 1 ∧ tokens.kindAt z = .eof ∧ e < z ∧
      (∀ i, inner ∈ a.scopesAt i ↔ inner.spanStart < i ∧ i ≤ e) ∧
      ∀ i, e < i → i ≤ z → a.scopesAt i = [outer] := by
  intro t tokens a
  obtain ⟨F, regular⟩ := parse_regular (tokenize text)
  obtain ⟨z, n, size, ending, mark⟩ := exists_eof text
  obtain ⟨_, m, token, _⟩ := last.span regular
  obtain ⟨inner, scope, opened, covered⟩ := last.covered regular
  obtain ⟨outer, top, _⟩ := exists_scopeOf regular regular.isQuery_one
  have behind : e < z := by
    have within : e < (parse text).tokens.size := by
      obtain ⟨_, found, _⟩ := (mem_positions.mp (mem_positions_iff_token.mpr ⟨m, token⟩)).1
      exact (Array.getElem?_eq_some_iff.mp found).1
    have other : e ≠ z := by
      rintro rfl
      exact last.kind_ne_eof regular ending
    omega
  refine ⟨1, outer, inner, z, regular.child_zero, top, scope, ?_, opened, size, ending, behind,
    covered, fun i after before => ?_⟩
  · rintro rfl
    have same := scopeOf_injective regular last.isQuery regular.isQuery_one
      (scope.trans top.symm)
    have place := (last.bracketed regular).place
    omega
  · have lists := lists_covering regular
      (regular.covering_behind token last.ending mark after before)
    rw [Analysis.Lists, List.map_singleton, top] at lists
    exact List.map_injective_iff.mpr (Option.some_injective _) lists

def halfTyped : String := "SELECT Id, (SELECT Name FROM Contacts "

theorem halfTyped_comesLast :
    (parse halfTyped).tree.ComesLast (parse halfTyped).tokens 9 11 12 := by
  have values : (let parsed := parse halfTyped
      (parsed.tree.parent? 11, parsed.tree.rule? 11, parsed.tree.rule? 9, parsed.tree.stop? 9,
        parsed.tokens.size, parsed.tokens[13]?, parsed.tokens.kindAt 14)) =
      (some 9, some .innerQuery, some .selectExpr, some 12,
        15, some ⟨.whitespace, " ", 13, 1, 37, .hidden⟩, .eof) := by cbv
  simp only [Prod.mk.injEq] at values
  obtain ⟨parent, rule, around, stop, size, blank, ending⟩ := values
  refine ⟨parent, .inl ⟨rule, around⟩, stop, ?_⟩
  rintro i after ⟨t, found, shown⟩
  have within := (Array.getElem?_eq_some_iff.mp found).1
  obtain rfl | rfl : i = 13 ∨ i = 14 := by omega
  · obtain rfl := Option.some.inj (found.symm.trans blank)
    exact absurd shown (by decide)
  · exact ending

theorem scopesAt_behind_halfTyped :
    let a := Analysis.ofParsed (parse halfTyped)
    (parse halfTyped).tree.ComesLast (parse halfTyped).tokens 9 11 12 ∧
      ∃ outer inner, a.scopeOf? 1 = some outer ∧ a.scopeOf? 11 = some inner ∧ inner ≠ outer ∧
        a.scopesAt 13 = [outer] ∧ a.scopesAt 14 = [outer] := by
  intro a
  have stream : ((parse halfTyped).tokens.size, (parse halfTyped).tree.child? 0 0) =
      (15, some 1) := by cbv
  obtain ⟨size, child⟩ := Prod.mk.inj stream
  obtain ⟨top, outer, inner, z, first, upper, lower, other, _, length, _, _, _, alone⟩ :=
    scopesAt_behind_last halfTyped 9 11 12 halfTyped_comesLast
  obtain rfl := Option.some.inj (first.symm.trans child)
  have last : 14 ≤ z := by omega
  exact ⟨halfTyped_comesLast, outer, inner, upper, lower, other,
    alone 13 (by decide) (by omega), alone 14 (by decide) last⟩

/-- At the end of the text the query that is being written is not listed. -/
theorem scopesAt_end_halfTyped :
    let t := (parse halfTyped).tree
    let tokens := (parse halfTyped).tokens
    let a := Analysis.ofParsed (parse halfTyped)
    t.ComesLast tokens 9 11 12 ∧ t.Unclosed tokens 9 ∧ tokens.kindAt 14 = .eof ∧
      ∃ s, a.scopeOf? 11 = some s ∧ s ∉ a.scopesAt 14 := by
  have values : (let a := Analysis.ofParsed (parse halfTyped)
      ((a.parsed.tree.children 9).getLast?, a.parsed.tree.token? 11, a.parsed.tokens.kindAt 14,
        (a.scopeOf? 11).map (·.selectToken), (a.scopesAt 14).map (·.selectToken))) =
      (some 11, none, .eof, some 6, [0]) := by cbv
  simp only [Prod.mk.injEq] at values
  obtain ⟨last, rule, ending, inner, listed⟩ := values
  obtain ⟨s, scope, first⟩ := Option.map_eq_some_iff.mp inner
  refine ⟨halfTyped_comesLast, ?_, ending, s, scope, fun member => ?_⟩
  · intro n i child token
    obtain rfl := Option.some.inj (last.symm.trans child)
    exact absurd (rule.symm.trans token) (by simp)
  · have among := List.mem_map_of_mem (f := (·.selectToken)) member
    rw [first] at among
    exact absurd (listed ▸ among) (by decide)

end SoqlAssist
