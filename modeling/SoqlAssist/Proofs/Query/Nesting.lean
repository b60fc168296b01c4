import Mathlib
import SoqlAssist.Proofs.Query.Enclosure
import SoqlAssist.Query.Analysis

/-!
Scopes by position and queries by ancestry. The spans of the scopes are nested as the queries are: a
query above another covers what that one covers, and of two that cover a position one is above the
other. So the scopes at a position are those of one query and of the queries above it, and at a
token of the tree they are those of the queries above the token, but for the first token, the
closing parentheses and what comes after the document's query.
-/
namespace SoqlAssist

open SoqlAssist.Tree

namespace Tree

def queriesAbove (t : Tree) (n : Nat) : List Nat :=
  (t.ancestors n).filter t.isQuery

def Closes (t : Tree) (tokens : TokenStream) (n q : Nat) : Prop :=
  ∃ a i, t.parent? n = some a ∧ t.rule? a ≠ some .query ∧ t.parent? q = some a ∧
    t.isQuery q = true ∧ t.token? n = some i ∧ tokens.kindAt i = .rParen

section

variable {t : Tree} {i n q : Nat} {r : Rule}

theorem mem_queriesAbove : q ∈ t.queriesAbove n ↔ q ∈ t.ancestors n ∧ t.isQuery q = true :=
  List.mem_filter

theorem pairwise_queriesAbove (t : Tree) (n : Nat) : (t.queriesAbove n).Pairwise (· > ·) :=
  (t.pairwise_ancestors n).sublist List.filter_sublist

theorem pairwise_cons_queriesAbove (t : Tree) (q : Nat) :
    (q :: t.queriesAbove q).Pairwise (· > ·) := by
  refine List.pairwise_cons.mpr ⟨fun p member => ?_, t.pairwise_queriesAbove q⟩
  exact lt_of_mem_ancestors (mem_queriesAbove.mp member).1

theorem isQuery_of_rule (rule : t.rule? n = some r) : t.isQuery n = r.isQueryScope := by
  rw [isQuery, rule]
  rfl

theorem isQuery_of_token (token : t.token? n = some i) : t.isQuery n = false := by
  rw [isQuery, rule_of_token token]
  rfl

theorem lt_size_of_isQuery (query : t.isQuery q = true) : q < t.size := by
  obtain ⟨r, rule, _⟩ := (Option.any_eq_true _ _).mp query
  exact lt_size_of_rule rule

theorem mem_queries : q ∈ t.queries ↔ t.isQuery q = true := by
  rw [queries, List.mem_filter, List.mem_range]
  exact ⟨And.right, fun query => ⟨lt_size_of_isQuery query, query⟩⟩

theorem pairwise_queries (t : Tree) : t.queries.Pairwise (· < ·) :=
  List.pairwise_lt_range.sublist List.filter_sublist

theorem around_eq {a : Nat} (parent : t.parent? q = some a) : t.around q = a := by
  rw [around, parent]
  rfl

theorem covers_iff : t.covers i q = true ↔
    ∃ s e, t.start? (t.around q) = some s ∧ t.stop? (t.around q) = some e ∧ s < i ∧ i ≤ e := by
  rw [covers, Bool.and_eq_true, Option.any_eq_true, Option.any_eq_true]
  simp only [decide_eq_true_eq]
  constructor
  · rintro ⟨⟨s, start, lt⟩, e, stop, le⟩
    exact ⟨s, e, start, stop, lt, le⟩
  · rintro ⟨s, e, start, stop, lt, le⟩
    exact ⟨⟨s, start, lt⟩, e, stop, le⟩

/-- The covering queries, last first, are a list of them in this order. -/
theorem covering_eq {l : List Nat} (decreasing : l.Pairwise (· > ·))
    (members : ∀ q, q ∈ l ↔ t.isQuery q = true ∧ t.covers i q = true) :
    (t.queries.filter (t.covers i)).reverse = l := by
  have sorted : (t.queries.filter (t.covers i)).reverse.Pairwise (· > ·) := by
    rw [List.pairwise_reverse]
    exact t.pairwise_queries.sublist List.filter_sublist
  refine sorted.eq_of_mem_iff decreasing fun q => ?_
  rw [List.mem_reverse, List.mem_filter, mem_queries, members]

end

namespace Regular

variable {t : Tree} {kind : Nat → TokenKind} {F : Forest} {limit a i n p q : Nat}

theorem isQuery_zero (regular : t.Regular kind F limit) : t.isQuery 0 = false :=
  isQuery_of_rule regular.rule_zero

theorem isQuery_one (regular : t.Regular kind F limit) : t.isQuery 1 = true :=
  isQuery_of_rule regular.first.1

/-- A query has a parent that comes before it and is no query. -/
theorem parent_query (regular : t.Regular kind F limit) (query : t.isQuery q = true) :
    ∃ a r, t.parent? q = some a ∧ a < q ∧ t.rule? a = some r ∧ r.isQueryScope = false := by
  rcases regular.query_cases query with rfl | ⟨a, bracketed⟩
  · exact ⟨0, .query, regular.first.2.1, Nat.zero_lt_one, regular.rule_zero, rfl⟩
  · have lt : a < q := by
      have place := bracketed.place
      omega
    rcases bracketed.rule with rule | rule
    · exact ⟨a, .selectExpr, bracketed.parent, lt, rule, rfl⟩
    · exact ⟨a, .inList, bracketed.parent, lt, rule, rfl⟩

/-- A query node that comes before another starts before it: between the two stands an opening
parenthesis. -/
theorem before (regular : t.Regular kind F limit) (first : t.isQuery p = true)
    (second : t.isQuery q = true) (lt : p < q) : t.Before p q := by
  have start := regular.start_eq (lt_size_of_isQuery first)
  have start' := regular.start_eq (lt_size_of_isQuery second)
  refine ⟨_, _, start, start', ?_⟩
  rcases regular.query_cases second with rfl | ⟨a, bracketed⟩
  · obtain rfl : p = 0 := by omega
    exact absurd first (by simp [regular.isQuery_zero])
  · obtain ⟨i, opening, _⟩ := bracketed.opening
    have place := bracketed.place
    have other : p ≠ a + 1 := by
      rintro rfl
      exact absurd first (by simp [isQuery_of_token opening])
    exact Nat.lt_of_le_of_lt (regular.start_le (by omega) opening start)
      (regular.lt_start (by omega) opening start')

theorem eq_of_start {k : Nat} (regular : t.Regular kind F limit) (first : t.isQuery p = true)
    (second : t.isQuery q = true) (start : t.start? p = some k) (start' : t.start? q = some k) :
    p = q := by
  have apart {p q : Nat} (first : t.isQuery p = true) (second : t.isQuery q = true)
      (start : t.start? p = some k) (start' : t.start? q = some k) : ¬ p < q := by
    intro lt
    obtain ⟨a, b, left, right, before⟩ := regular.before first second lt
    obtain rfl := Option.some.inj (start.symm.trans left)
    obtain rfl := Option.some.inj (start'.symm.trans right)
    exact Nat.lt_irrefl _ before
  exact Nat.le_antisymm (Nat.le_of_not_lt (apart second first start' start))
    (Nat.le_of_not_lt (apart first second start start'))

theorem pairwise_before (regular : t.Regular kind F limit) : t.queries.Pairwise t.Before := by
  refine t.pairwise_queries.imp_of_mem ?_
  intro p q first second lt
  exact regular.before (mem_queries.mp first) (mem_queries.mp second) lt

theorem exists_backs (regular : t.Regular kind F limit) (query : t.isQuery q = true) :
    ∃ s, t.Backs q s := by
  obtain ⟨a, r, parent, lt, rule, _⟩ := regular.parent_query query
  have start := regular.start_eq (lt_size_of_isQuery query)
  have start' := regular.start_eq (lt_size_of_rule rule)
  rw [← around_eq parent] at start'
  exact ⟨⟨_, none, none, [], [], false, _, _⟩, start, start', rfl⟩

/-- What is above a node spans what the node spans. -/
theorem span_above {b e : Nat} {r r' : Rule} (regular : t.Regular kind F limit)
    (above : b ∈ t.ancestors a) (rule : t.rule? b = some r) (inner : t.rule? a = some r')
    (stop : t.stop? a = some e) : ∃ e', t.stop? b = some e' ∧ e ≤ e' := by
  obtain ⟨s, below, held, _⟩ := regular.holds rule
  obtain ⟨s', below', held', _⟩ := regular.holds inner
  obtain ⟨m, after, within, token⟩ := Planted.token_of_stop held' stop
  have deep : b ∈ t.ancestors m :=
    ancestors_trans above ((regular.mem_ancestors_iff held').mpr ⟨after, within⟩)
  rw [regular.mem_ancestors_iff held] at deep
  exact regular.le_stop held deep.1 deep.2 token

/-- A query above another covers what that one covers. -/
theorem covers_above (regular : t.Regular kind F limit) (query : t.isQuery q = true)
    (covered : t.covers i q = true) (above : p ∈ t.queriesAbove q) : t.covers i p = true := by
  obtain ⟨member, outer⟩ := mem_queriesAbove.mp above
  obtain ⟨a, r, parent, lt, rule, other⟩ := regular.parent_query query
  obtain ⟨b, r', parent', lt', rule', _⟩ := regular.parent_query outer
  have higher : p ∈ t.ancestors a := by
    rw [ancestors_cons parent lt] at member
    rcases List.mem_cons.mp member with rfl | member
    · rw [isQuery_of_rule rule, other] at outer
      exact absurd outer (by simp)
    · exact member
  have top : b ∈ t.ancestors a := ancestors_trans (parent_mem_ancestors parent' lt') higher
  obtain ⟨s, e, start, stop, after, before⟩ := covers_iff.mp covered
  rw [around_eq parent] at start stop
  obtain ⟨e', stop', le⟩ := regular.span_above top rule' rule stop
  obtain ⟨s', start'⟩ : ∃ s', t.start? b = some s' :=
    ⟨_, regular.start_eq (lt_size_of_rule rule')⟩
  have first := regular.start_mono (Nat.le_of_lt (lt_of_mem_ancestors top)) start' start
  rw [← around_eq parent'] at start' stop'
  exact covers_iff.mpr ⟨s', e', start', stop', by omega, by omega⟩

theorem one_above (regular : t.Regular kind F limit) (query : t.isQuery q = true)
    (later : 1 < q) : 1 ∈ t.ancestors q := by
  rcases regular.first.2.2 q (by omega) (lt_size_of_isQuery query) with rfl | above | ⟨_, i, token⟩
  · omega
  · exact above
  · exact absurd query (by simp [isQuery_of_token token])

/-- Of two queries that cover a position the first is above the second. -/
theorem above_of_covers (regular : t.Regular kind F limit) (first : t.isQuery p = true)
    (second : t.isQuery q = true) (lt : p < q) (covered : t.covers i p = true)
    (covered' : t.covers i q = true) : p ∈ t.ancestors q := by
  rcases regular.query_cases first with rfl | ⟨b, outer⟩
  · exact regular.one_above second lt
  rcases regular.query_cases second with rfl | ⟨a, inner⟩
  · have place := outer.place
    omega
  obtain ⟨_, r, parent, smaller, rule, other⟩ := regular.parent_query second
  obtain rfl := Option.some.inj (inner.parent.symm.trans parent)
  obtain ⟨_, r', parent', _, rule', _⟩ := regular.parent_query first
  obtain rfl := Option.some.inj (outer.parent.symm.trans parent')
  obtain ⟨s, e, start, stop, _, before⟩ := covers_iff.mp covered
  obtain ⟨s', e', start', _, after, _⟩ := covers_iff.mp covered'
  rw [around_eq parent'] at start stop
  rw [around_eq parent] at start'
  -- A node that came after all that is below `b` would start after the position.
  have below : b ∈ t.ancestors a := by
    obtain ⟨s₀, body, held, _⟩ := regular.holds rule'
    have place := outer.place
    have place' := inner.place
    refine (regular.mem_ancestors_iff held).mpr ⟨by omega, ?_⟩
    by_contra outside
    have apart := regular.stop_lt held stop (Nat.lt_of_not_le outside) start'
    omega
  have higher : p ∈ t.ancestors a := by
    rcases outer.rest a below with rfl | rfl | above | ⟨_, i, token, _⟩
    · obtain ⟨i, token, _⟩ := outer.opening
      exact absurd rule (by simp [rule_of_token token])
    · rw [isQuery_of_rule rule, other] at first
      exact absurd first (by simp)
    · exact above
    · exact absurd rule (by simp [rule_of_token token])
  rw [ancestors_cons parent smaller]
  exact List.mem_cons_of_mem _ higher

/-- The queries that cover a position are the last of them and those above it. -/
theorem covering_cases (regular : t.Regular kind F limit) (i : Nat) :
    (t.queries.filter (t.covers i)).reverse = [] ∨ ∃ q, t.isQuery q = true ∧
      (t.queries.filter (t.covers i)).reverse = q :: t.queriesAbove q := by
  rcases List.eq_nil_or_concat (t.queries.filter (t.covers i)) with empty | ⟨rest, q, split⟩
  · exact .inl (by rw [empty]; rfl)
  rw [List.concat_eq_append] at split
  have last : q ∈ t.queries.filter (t.covers i) := by
    rw [split]
    exact List.mem_append_right _ List.mem_cons_self
  obtain ⟨listed, covered⟩ := List.mem_filter.mp last
  have query := mem_queries.mp listed
  refine .inr ⟨q, query, covering_eq ?_ fun p => ?_⟩
  · exact t.pairwise_cons_queriesAbove q
  constructor
  · intro member
    rcases List.mem_cons.mp member with rfl | above
    · exact ⟨query, covered⟩
    · exact ⟨(mem_queriesAbove.mp above).2, regular.covers_above query covered above⟩
  · rintro ⟨other, covered'⟩
    have among := List.mem_filter.mpr ⟨mem_queries.mpr other, covered'⟩
    rw [split] at among
    rcases List.mem_append.mp among with earlier | same
    · have sorted := t.pairwise_queries.sublist (List.filter_sublist (p := t.covers i))
      rw [split] at sorted
      have lt := (List.pairwise_append.mp sorted).2.2 p earlier q List.mem_cons_self
      exact List.mem_cons_of_mem _ (mem_queriesAbove.mpr
        ⟨regular.above_of_covers other query lt covered' covered, other⟩)
    · exact List.mem_cons.mpr (.inl (List.mem_singleton.mp same))

/-- The farthest query above a query is that of the document. -/
theorem getLast_queriesAbove (regular : t.Regular kind F limit) (query : t.isQuery q = true) :
    (q :: t.queriesAbove q).getLast? = some 1 := by
  have least : ∀ p ∈ q :: t.queriesAbove q, 1 ≤ p := by
    intro p member
    apply Nat.pos_of_ne_zero
    rintro rfl
    rcases List.mem_cons.mp member with rfl | above
    · exact absurd query (by simp [regular.isQuery_zero])
    · exact absurd (mem_queriesAbove.mp above).2 (by simp [regular.isQuery_zero])
  have present : 1 ∈ q :: t.queriesAbove q := by
    rcases Nat.eq_or_lt_of_le (least q List.mem_cons_self) with rfl | later
    · exact List.mem_cons_self
    · exact List.mem_cons_of_mem _
        (mem_queriesAbove.mpr ⟨regular.one_above query later, regular.isQuery_one⟩)
  have decreasing := t.pairwise_cons_queriesAbove q
  rcases List.eq_nil_or_concat (q :: t.queriesAbove q) with empty | ⟨rest, last, split⟩
  · exact absurd empty (by simp)
  rw [split, List.concat_eq_append] at present least decreasing ⊢
  rw [List.getLast?_concat]
  rcases List.mem_append.mp present with earlier | same
  · have lt := (List.pairwise_append.mp decreasing).2.2 1 earlier last List.mem_cons_self
    have le := least last (List.mem_append_right _ List.mem_cons_self)
    omega
  · rw [List.mem_singleton.mp same]

/-- Apart from its first token, a rule spans the tokens below it. -/
theorem span_token {r : Rule} (regular : t.Regular kind F limit) (rule : t.rule? a = some r)
    (token : t.token? n = some i) :
    (∃ s e, t.start? a = some s ∧ t.stop? a = some e ∧ s < i ∧ i ≤ e) ↔
      a ∈ t.ancestors n ∧ t.start? a ≠ some i := by
  obtain ⟨s, below, held, _⟩ := regular.holds rule
  rw [regular.mem_ancestors_iff held]
  constructor
  · rintro ⟨s, e, start, stop, after, before⟩
    refine ⟨⟨?_, ?_⟩, ?_⟩
    · by_contra outside
      have le := regular.start_mono (Nat.le_of_not_lt outside) (regular.start_token token) start
      omega
    · by_contra outside
      have apart := regular.stop_lt held stop (Nat.lt_of_not_le outside)
        (regular.start_token token)
      omega
    · intro same
      obtain rfl := Option.some.inj (start.symm.trans same)
      exact Nat.lt_irrefl _ after
  · rintro ⟨⟨after, within⟩, other⟩
    obtain ⟨e, stop, le⟩ := regular.le_stop held after within token
    have first := regular.start_le (Nat.le_of_lt after) token held.start
    refine ⟨s, e, held.start, stop, ?_, le⟩
    rcases Nat.eq_or_lt_of_le first with rfl | lt
    · exact absurd held.start other
    · exact lt

/-- A rule whose first child is a token starts at it. -/
theorem start_opening {r : Rule} (regular : t.Regular kind F limit) (rule : t.rule? a = some r)
    (token : t.token? (a + 1) = some i) : t.start? a = some i := by
  have within := lt_size_of_token token
  obtain ⟨s, below, held, _⟩ := regular.holds rule
  rw [regular.start_eq (by omega), tokensFrom_split (Nat.le_succ a) (by omega),
    tokensFrom_token within token, Nat.succ_sub (Nat.le_refl a), Nat.sub_self]
  simp [held.token]

/-- A query in parentheses covers the tokens below it and its closing parenthesis. -/
theorem covers_bracketed (regular : t.Regular kind F limit) (query : t.isQuery q = true)
    (bracketed : t.Bracketed kind a q) (token : t.token? n = some i) :
    t.covers i q = true ↔ q ∈ t.ancestors n ∨ t.parent? n = some a ∧ kind i = .rParen := by
  obtain ⟨_, r, parent, lt, rule, _⟩ := regular.parent_query query
  obtain rfl := Option.some.inj (bracketed.parent.symm.trans parent)
  obtain ⟨o, opening, opened⟩ := bracketed.opening
  have place := bracketed.place
  rw [covers_iff, around_eq parent, regular.span_token rule token,
    regular.start_opening rule opening]
  constructor
  · rintro ⟨above, other⟩
    rcases bracketed.rest n above with rfl | rfl | deeper | ⟨up, j, token', closed⟩
    · exact absurd (opening.symm.trans token) other
    · exact absurd query (by simp [isQuery_of_token token])
    · exact .inl deeper
    · obtain rfl := Option.some.inj (token'.symm.trans token)
      exact .inr ⟨up, closed⟩
  · rintro (above | ⟨up, closed⟩)
    · refine ⟨ancestors_trans (parent_mem_ancestors parent lt) above, fun same => ?_⟩
      have later := lt_of_mem_ancestors above
      have apart := regular.token_lt (by omega) opening token
      exact absurd (Option.some.inj same) (Nat.ne_of_lt apart)
    · refine ⟨parent_mem_ancestors up (regular.parent_lt up), fun same => ?_⟩
      rw [Option.some.inj same, closed] at opened
      exact absurd opened (by simp)

theorem pos_of_token (regular : t.Regular kind F limit) (token : t.token? n = some i) : 0 < n := by
  apply Nat.pos_of_ne_zero
  rintro rfl
  exact absurd regular.rule_zero (by simp [rule_of_token token])

theorem covers_one (regular : t.Regular kind F limit) (token : t.token? n = some i) :
    t.covers i 1 = true ↔ t.start? 0 ≠ some i := by
  rw [covers_iff, around_eq regular.first.2.1, regular.span_token regular.rule_zero token]
  exact and_iff_right
    (regular.zero_above (regular.pos_of_token token) (lt_size_of_token token))

end Regular

section Tokens

variable {t : Tree} {tokens : TokenStream} {F : Forest} {limit i n q : Nat}

/-- The query that a parenthesis closes stands between parentheses. -/
theorem Closes.bracketed (regular : t.Regular tokens.kindAt F limit)
    (closes : t.Closes tokens n q) :
    t.isQuery q = true ∧ ∃ a, t.Bracketed tokens.kindAt a q ∧ t.parent? n = some a := by
  obtain ⟨a, i, up, other, parent, query, _⟩ := closes
  refine ⟨query, ?_⟩
  rcases regular.query_cases query with rfl | ⟨b, bracketed⟩
  · obtain rfl := Option.some.inj (regular.first.2.1.symm.trans parent)
    exact absurd regular.rule_zero other
  · obtain rfl := Option.some.inj (bracketed.parent.symm.trans parent)
    exact ⟨b, bracketed, up⟩

variable (regular : t.Regular tokens.kindAt F limit) (token : t.token? n = some i)
include regular token

/-- A token is covered by the document's query, by the queries above it and by the query that it
closes; the first token is covered by none. -/
theorem Regular.covers_token (query : t.isQuery q = true) : t.covers i q = true ↔
    t.start? 0 ≠ some i ∧ (q = 1 ∨ q ∈ t.ancestors n ∨ t.Closes tokens n q) := by
  constructor
  · intro covered
    refine ⟨fun first => ?_, ?_⟩
    · obtain ⟨s, e, start, _, after, _⟩ := covers_iff.mp covered
      have least := regular.start_mono (Nat.zero_le _) first start
      omega
    · rcases regular.query_cases query with rfl | ⟨a, bracketed⟩
      · exact .inl rfl
      rcases (regular.covers_bracketed query bracketed token).mp covered with above | ⟨up, closed⟩
      · exact .inr (.inl above)
      · refine .inr (.inr ⟨a, i, up, ?_, bracketed.parent, query, token, closed⟩)
        rcases bracketed.rule with rule | rule <;> simp [rule]
  · rintro ⟨later, rfl | around⟩
    · exact (regular.covers_one token).mpr later
    rcases regular.query_cases query with rfl | ⟨a, bracketed⟩
    · exact (regular.covers_one token).mpr later
    apply (regular.covers_bracketed query bracketed token).mpr
    rcases around with above | ⟨b, j, up, _, parent, _, token', closed⟩
    · exact .inl above
    · obtain rfl := Option.some.inj (bracketed.parent.symm.trans parent)
      obtain rfl := Option.some.inj (token'.symm.trans token)
      exact .inr ⟨up, closed⟩

theorem Regular.covering_first (first : t.start? 0 = some i) :
    (t.queries.filter (t.covers i)).reverse = [] := by
  refine covering_eq .nil fun q => ⟨fun member => absurd member List.not_mem_nil, ?_⟩
  rintro ⟨query, covered⟩
  exact absurd first ((regular.covers_token token query).mp covered).1

theorem Regular.covering_closing (closes : t.Closes tokens n q) :
    (t.queries.filter (t.covers i)).reverse = q :: t.queriesAbove q := by
  obtain ⟨query, a, bracketed, up⟩ := closes.bracketed regular
  have covered : t.covers i q = true := by
    obtain ⟨_, j, _, _, _, _, token', closed⟩ := closes
    obtain rfl := Option.some.inj (token'.symm.trans token)
    exact (regular.covers_bracketed query bracketed token).mpr (.inr ⟨up, closed⟩)
  refine covering_eq (t.pairwise_cons_queriesAbove q) fun p => ⟨fun member => ?_, ?_⟩
  · rcases List.mem_cons.mp member with rfl | above
    · exact ⟨query, covered⟩
    · exact ⟨(mem_queriesAbove.mp above).2, regular.covers_above query covered above⟩
  · rintro ⟨other, covered'⟩
    have place := bracketed.place
    rcases ((regular.covers_token token other).mp covered').2 with rfl | above | closes'
    · exact List.mem_cons_of_mem _
        (mem_queriesAbove.mpr ⟨regular.one_above query (by omega), other⟩)
    · have same : t.ancestors n = t.ancestors q := by
        rw [ancestors_cons up (regular.parent_lt up),
          ancestors_cons bracketed.parent (regular.parent_lt bracketed.parent)]
      rw [same] at above
      exact List.mem_cons_of_mem _ (mem_queriesAbove.mpr ⟨above, other⟩)
    · obtain ⟨_, b, bracketed', up'⟩ := closes'.bracketed regular
      obtain rfl := Option.some.inj (up.symm.trans up')
      rw [bracketed'.place, place]
      exact List.mem_cons_self

theorem Regular.covering_trailing (later : t.start? 0 ≠ some i) (up : t.parent? n = some 0) :
    (t.queries.filter (t.covers i)).reverse = [1] := by
  refine covering_eq (List.pairwise_singleton _ _) fun q => ?_
  rw [List.mem_singleton]
  constructor
  · rintro rfl
    exact ⟨regular.isQuery_one, (regular.covers_one token).mpr later⟩
  · rintro ⟨query, covered⟩
    rcases ((regular.covers_token token query).mp covered).2 with rfl | above | closes
    · rfl
    · rw [ancestors_cons up (regular.parent_lt up)] at above
      rcases List.mem_cons.mp above with rfl | above
      · exact absurd query (by simp [regular.isQuery_zero])
      · exact absurd (lt_of_mem_ancestors above) (Nat.not_lt_zero q)
    · obtain ⟨a, _, up', other, _⟩ := closes
      obtain rfl := Option.some.inj (up.symm.trans up')
      exact absurd regular.rule_zero other

theorem Regular.covering_inside (later : t.start? 0 ≠ some i) (inside : t.parent? n ≠ some 0)
    (unclosed : ∀ q, ¬ t.Closes tokens n q) :
    (t.queries.filter (t.covers i)).reverse = t.queriesAbove n := by
  refine covering_eq (t.pairwise_queriesAbove n) fun q => ?_
  rw [mem_queriesAbove]
  constructor
  · rintro ⟨above, query⟩
    exact ⟨query, (regular.covers_token token query).mpr ⟨later, .inr (.inl above)⟩⟩
  · rintro ⟨query, covered⟩
    refine ⟨?_, query⟩
    rcases ((regular.covers_token token query).mp covered).2 with rfl | above | closes
    · rcases regular.first.2.2 n (regular.pos_of_token token) (lt_size_of_token token) with
        rfl | above | ⟨up, _⟩
      · exact absurd query (by simp [isQuery_of_token token])
      · exact above
      · exact absurd up inside
    · exact above
    · exact absurd closes (unclosed q)

end Tokens

end Tree

def Analysis.scopeOf? (a : Analysis) (q : Nat) : Option QueryScope :=
  a.scopes.scopeOf? a.parsed.tree q

/-- The scopes at a position are those of the given query nodes, in this order. -/
def Analysis.Lists (a : Analysis) (i : Nat) (qs : List Nat) : Prop :=
  (a.scopesAt i).map some = qs.map a.scopeOf?

section Parse

variable {tokens : TokenStream} {F : Forest} {i n : Nat}
  (regular : (parseTokens tokens).tree.Regular tokens.kindAt F tokens.size)
include regular

theorem ofParsed_backs : List.Forall₂ (parseTokens tokens).tree.Backs
    (parseTokens tokens).tree.queries (Analysis.ofParsed (parseTokens tokens)).scopes.toList := by
  obtain ⟨start, below, rfl⟩ := regular.root
  exact QueryScopes.ofTree_backs regular.size regular.lodged
    (fun q member => regular.exists_backs (mem_queries.mp member)) regular.pairwise_before

theorem lists_covering {qs : List Nat} (covering : ((parseTokens tokens).tree.queries.filter
      ((parseTokens tokens).tree.covers i)).reverse = qs) :
    (Analysis.ofParsed (parseTokens tokens)).Lists i qs := by
  rw [← covering]
  exact QueryScopes.scopesAt_eq (ofParsed_backs regular) regular.pairwise_before

theorem exists_scopeOf {q : Nat} (query : (parseTokens tokens).tree.isQuery q = true) :
    ∃ s, (Analysis.ofParsed (parseTokens tokens)).scopeOf? q = some s ∧
      (parseTokens tokens).tree.Backs q s :=
  QueryScopes.exists_scopeOf (ofParsed_backs regular) regular.pairwise_before
    (mem_queries.mpr query)

/-- Different queries have different scopes. -/
theorem scopeOf_injective {p q : Nat} (first : (parseTokens tokens).tree.isQuery p = true)
    (second : (parseTokens tokens).tree.isQuery q = true)
    (same : (Analysis.ofParsed (parseTokens tokens)).scopeOf? p =
      (Analysis.ofParsed (parseTokens tokens)).scopeOf? q) : p = q := by
  obtain ⟨s, found, backed⟩ := exists_scopeOf regular first
  obtain ⟨s', found', backed'⟩ := exists_scopeOf regular second
  obtain rfl : s = s' := Option.some.inj (found.symm.trans (same.trans found'))
  exact regular.eq_of_start first second backed.start backed'.start

/-- The root starts at the first visible token. -/
theorem start_eq_iff (token : (parseTokens tokens).tree.token? n = some i) :
    (parseTokens tokens).tree.start? 0 = some i ↔ ∀ j < i, ¬ tokens.Shows j := by
  have read := mem_positions_iff_token.mpr ⟨n, token⟩
  have before := (Parse.mem_positions.mp read).2
  constructor
  · intro start j lt shown
    have earlier : j ∈ (Parse.Outline.ofTokens tokens).positions :=
      Parse.mem_positions.mpr ⟨shown, fun k smaller => before k (by omega)⟩
    obtain ⟨m, token'⟩ := mem_positions_iff_token.mp earlier
    have le := regular.start_le (Nat.zero_le m) token' start
    omega
  · intro none
    obtain ⟨s, start⟩ : ∃ s, (parseTokens tokens).tree.start? 0 = some s :=
      ⟨_, regular.start_eq (lt_size_of_rule regular.rule_zero)⟩
    obtain ⟨m, token'⟩ := regular.token_of_start (Nat.zero_le n) token start
    have shown := (Parse.mem_positions.mp (mem_positions_iff_token.mpr ⟨m, token'⟩)).1
    have le := regular.start_le (Nat.zero_le n) token start
    rcases Nat.eq_or_lt_of_le le with rfl | lt
    · exact start
    · exact absurd shown (none s lt)

end Parse

/-- The scopes at a position, looked up by spans, are those of the queries around it. -/
theorem scopesAt_parse (tokens : TokenStream) :
    let t := (parseTokens tokens).tree
    let a := Analysis.ofParsed (parseTokens tokens)
    ∃ top, t.child? 0 0 = some top ∧ t.isQuery top = true ∧
      (∀ n i, t.token? n = some i →
        ((∀ j < i, ¬ tokens.Shows j) → a.Lists i []) ∧
        (∀ q, t.Closes tokens n q → a.Lists i (q :: t.queriesAbove q)) ∧
        ((∃ j < i, tokens.Shows j) →
          ((t.parent? n).bind t.rule? = some .query → a.Lists i [top]) ∧
          ((t.parent? n).bind t.rule? ≠ some .query → (∀ q, ¬ t.Closes tokens n q) →
            a.Lists i (t.queriesAbove n)))) ∧
      (∀ i, a.Lists i [] ∨ ∃ q, t.isQuery q = true ∧ a.Lists i (q :: t.queriesAbove q) ∧
        (q :: t.queriesAbove q).getLast? = some top) ∧
      ∀ p q, t.isQuery p = true → t.isQuery q = true → a.scopeOf? p = a.scopeOf? q → p = q := by
  intro t a
  obtain ⟨F, regular⟩ := parse_regular tokens
  refine ⟨1, regular.child_zero, regular.isQuery_one, fun n i token => ?_, fun i => ?_,
    fun p q => scopeOf_injective regular⟩
  · have start := start_eq_iff regular token
    refine ⟨fun none => ?_, fun q closes => ?_, fun ⟨j, lt, shown⟩ => ?_⟩
    · exact lists_covering regular (regular.covering_first token (start.mpr none))
    · exact lists_covering regular (regular.covering_closing token closes)
    have later : t.start? 0 ≠ some i := fun first => start.mp first j lt shown
    refine ⟨fun up => ?_, fun inside unclosed => ?_⟩
    · obtain ⟨b, parent, rule⟩ := Option.bind_eq_some_iff.mp up
      obtain rfl := regular.zero_of_query rule
      exact lists_covering regular (regular.covering_trailing token later parent)
    · have deep : t.parent? n ≠ some 0 := by
        intro parent
        rw [parent] at inside
        exact inside regular.rule_zero
      exact lists_covering regular (regular.covering_inside token later deep unclosed)
  · rcases regular.covering_cases i with empty | ⟨q, query, covering⟩
    · exact .inl (lists_covering regular empty)
    · exact .inr ⟨q, query, lists_covering regular covering, regular.getLast_queriesAbove query⟩

/-- The visible tokens of `SELECT (SELECT Id FROM Contacts) FROM Account`. -/
def subqueryTokens : TokenStream :=
  #[⟨.SELECT, "SELECT", 0, 1, 0, .visible⟩, ⟨.lParen, "(", 1, 1, 7, .visible⟩,
    ⟨.SELECT, "SELECT", 2, 1, 8, .visible⟩, ⟨.identifier, "Id", 3, 1, 15, .visible⟩,
    ⟨.FROM, "FROM", 4, 1, 18, .visible⟩, ⟨.identifier, "Contacts", 5, 1, 23, .visible⟩,
    ⟨.rParen, ")", 6, 1, 31, .visible⟩, ⟨.FROM, "FROM", 7, 1, 33, .visible⟩,
    ⟨.identifier, "Account", 8, 1, 38, .visible⟩, ⟨.eof, "", 9, 1, 45, .visible⟩]

theorem scopesAt_subquery :
    let t := (parseTokens subqueryTokens).tree
    let a := Analysis.ofParsed (parseTokens subqueryTokens)
    ∃ top, t.child? 0 0 = some top ∧
      (t.token? 2 = some 0 ∧ a.Lists 0 []) ∧
      (t.token? 20 = some 6 ∧ t.Closes subqueryTokens 20 6 ∧ a.Lists 6 (6 :: t.queriesAbove 6)) ∧
      (t.token? 28 = some 9 ∧ t.parent? 28 = some 0 ∧ a.Lists 9 [top]) ∧
      (t.token? 12 = some 3 ∧ t.parent? 12 = some 11 ∧ a.Lists 3 (t.queriesAbove 12)) := by
  have tokens : [2, 12, 20, 28].map (parseTokens subqueryTokens).tree.token? =
      [some 0, some 3, some 6, some 9] := by cbv
  have parents : [6, 12, 20, 28].map (parseTokens subqueryTokens).tree.parent? =
      [some 4, some 11, some 4, some 0] := by cbv
  have rules : [0, 4, 6, 11].map (parseTokens subqueryTokens).tree.rule? =
      [some .query, some .selectExpr, some .innerQuery, some .identifier] := by cbv
  obtain ⟨top, child, _, general, _⟩ := scopesAt_parse subqueryTokens
  have shown : subqueryTokens.Shows 0 := ⟨_, rfl, rfl⟩
  generalize (parseTokens subqueryTokens).tree = t at tokens parents rules child general ⊢
  simp only [List.map_cons, List.map_nil, List.cons.injEq, and_true] at tokens parents rules
  obtain ⟨opening, name, closing, ending⟩ := tokens
  obtain ⟨inner, lower, upper, last⟩ := parents
  obtain ⟨root, column, query, leaf⟩ := rules
  have closes : t.Closes subqueryTokens 20 6 :=
    ⟨4, 6, upper, by simp [column], inner, isQuery_of_rule query, closing, rfl⟩
  refine ⟨top, child, ⟨opening, ?_⟩, ⟨closing, closes, ?_⟩, ⟨ending, last, ?_⟩, name, lower, ?_⟩
  · exact (general 2 0 opening).1 fun j lt => absurd lt (Nat.not_lt_zero j)
  · exact (general 20 6 closing).2.1 6 closes
  · exact ((general 28 9 ending).2.2 ⟨0, by decide, shown⟩).1 (by rw [last]; exact root)
  · refine ((general 12 3 name).2.2 ⟨0, by decide, shown⟩).2 (by simp [lower, leaf]) ?_
    rintro q ⟨_, i, _, _, _, _, token, closed⟩
    obtain rfl := Option.some.inj (token.symm.trans name)
    exact absurd closed (by decide)

end SoqlAssist
