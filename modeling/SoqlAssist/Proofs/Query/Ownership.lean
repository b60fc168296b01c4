import SoqlAssist.Proofs.Grammar.Source
import SoqlAssist.Proofs.Query.Condition
import SoqlAssist.Proofs.Query.Record

/-!
What the scope of a query says, read off the query's own part of the tree. A walk files what it finds
under the nearest query; columns, groups and objects stand two rules below the query that they belong
to, so what is filed under a query is what a path down from its node reaches. No query of the tree
shares its first token with another.
-/
namespace SoqlAssist

open Grammar
open SoqlAssist.Tree

namespace Tree

section Specification

variable (t : Tree) (tokens : TokenStream)

def down (n : Nat) : List Rule → List Nat
  | [] => [n]
  | r :: path => (t.childrenFor n r).flatMap fun c => down c path

/-- The identifier that is all of a field. -/
def onlyIdentifier? (field : Nat) : Option Nat :=
  match t.children field with
  | [name] =>
    if t.rule? field = some .field ∧ t.rule? name = some .identifier then some name else none
  | _ => none

/-- The names of the fields that are one identifier; an identifier without a text is no name. -/
def plainNames (fields : List Nat) : List String :=
  ((fields.filterMap t.onlyIdentifier?).map (t.text · tokens)).filter (· ≠ "")

def columnNames (q : Nat) : List String :=
  t.plainNames tokens ((t.down q [.selectExprs, .selectExpr]).filterMap (t.child? · 0))

def groupNames (q : Nat) : List String :=
  let lists := (t.down q [.groupByClause, .groupByExprs]).map fun list =>
    t.plainNames tokens (t.childrenFor list .field)
  ((lists.filter (· ≠ [])).getLast?).getD []

/-- The clause of a query that has an object, and the first object in it. -/
def source? (q : Nat) : Option (Nat × Nat) :=
  (t.childrenFor q .fromClause).findSome? fun clause =>
    (t.down clause [.fromExprs, .fromExpr]).head?.map (clause, ·)

def objectName? (object : Nat) : Option String :=
  ((((t.childrenFor object .field).head?.bind fun path =>
    (t.childrenFor path .identifier).head?).map (t.text · tokens))).filter (· ≠ "")

/-- The scope says of a query what stands in its own part of the tree. -/
structure Describes (q : Nat) (s : QueryScope) : Prop where
  isSemiJoin : s.isSemiJoin = true ↔ t.rule? q = some .semiJoin
  oneClause : (t.childrenFor q .fromClause).length ≤ 1
  fromToken : s.fromToken = (t.source? q).bind fun source => t.start? source.1
  objectName : s.objectName = (t.source? q).bind fun source => t.objectName? tokens source.2
  selectedFields : s.selectedFields = t.columnNames tokens q
  groupByFields : s.groupByFields = t.groupNames tokens q

end Specification

theorem singleName_eq (t : Tree) (tokens : TokenStream) (field : Nat) :
    QueryScopes.singleName? t tokens field =
      (t.onlyIdentifier? field).bind (QueryScopes.nameAt? t tokens) := by
  rw [onlyIdentifier?, QueryScopes.singleName?]
  by_cases rule : t.rule? field = some .field
  · rw [rule]
    match t.children field with
    | [] => rfl
    | [name] =>
      by_cases identifier : t.rule? name = some .identifier
      · simp [identifier]
      · simp [identifier]
    | _ :: _ :: _ => rfl
  · split
    · exact absurd ‹_› rule
    · match t.children field with
      | [] => rfl
      | [name] => simp [rule]
      | _ :: _ :: _ => rfl

theorem plainNames_eq (t : Tree) (tokens : TokenStream) (fields : List Nat) :
    t.plainNames tokens fields = fields.filterMap (QueryScopes.singleName? t tokens) := by
  rw [plainNames, ← List.filterMap_eq_filter, List.filterMap_map, List.filterMap_filterMap]
  refine List.filterMap_congr fun field _ => ?_
  rw [singleName_eq]
  congr 1
  funext name
  by_cases empty : t.text name tokens = "" <;> simp [QueryScopes.nameAt?, Option.guard, empty]

theorem rule_of_isQuery {t : Tree} {q : Nat} (query : t.isQuery q = true) :
    ∃ r, t.rule? q = some r ∧ r.isQueryScope = true := by
  rw [isQuery, Option.any_eq_true] at query
  exact query

theorem rule_of_mem_childrenFor {t : Tree} {c n : Nat} {r : Rule}
    (member : c ∈ t.childrenFor n r) : t.rule? c = some r := by
  simpa using (List.mem_filter.mp member).2

theorem mem_down_pair {t : Tree} {n q : Nat} {r' r : Rule} :
    n ∈ t.down q [r', r] ↔ ∃ p ∈ t.childrenFor q r', n ∈ t.childrenFor p r := by
  simp [down]

end Tree

theorem findSome_short {α β : Type} {f : α → Option β} {l : List α} {b : β}
    (short : l.length ≤ 1) : l.findSome? f = some b ↔ ∃ a ∈ l, f a = some b := by
  match l, short with
  | [], _ => simp
  | [a], _ => cases found : f a <;> simp [found]

theorem Rule.once_of_query {r : Rule} (own : r.isQueryScope = true) :
    r.once? = some .fromClause := by
  cases r <;> simp [Rule.isQueryScope] at own <;> rfl

/-- The rule `r` stands below `r'` only, and that only right below a query. -/
structure Rule.Owned (r' r : Rule) : Prop where
  inner : r ≠ .query ∧ r.isQueryScope = false
  outer : r' ≠ .query ∧ r'.isQueryScope = false
  below : ∀ x : Rule, r ∈ x.parts → x = r'
  clause : ∀ x : Rule, r' ∈ x.parts → x.isQueryScope = true

/-- The columns, groups and objects of a query, each with the rule between. -/
def Rule.ownedPairs : List (Rule × Rule) :=
  [(.selectExprs, .selectExpr), (.groupByClause, .groupByExprs), (.fromClause, .fromExprs)]

theorem Rule.owned_of_mem {r' r : Rule} (listed : (r', r) ∈ Rule.ownedPairs) :
    Rule.Owned r' r := by
  simp only [Rule.ownedPairs, List.mem_cons, Prod.mk.injEq, List.not_mem_nil, or_false] at listed
  rcases listed with ⟨rfl, rfl⟩ | ⟨rfl, rfl⟩ | ⟨rfl, rfl⟩
  all_goals
    constructor
    · decide
    · decide
    · intro x part
      cases x <;> simp [Rule.parts] at part ⊢
    · intro x part
      cases x <;> simp [Rule.parts, Rule.isQueryScope] at part ⊢

namespace Forest.Lodged

variable {t : Tree} {kind : Nat → TokenKind} {F : Forest} {parent : Option Nat} {i : Nat} {x : Rule}

theorem length_filter_rule (kind : Nat → TokenKind) (lodged : F.Lodged t.nodes parent i) :
    ((F.roots i).filter (t.rule? · == some x)).length = (F.labels kind).count (.rule x) := by
  induction F generalizing i with
  | nil => rfl
  | leaf p next ih =>
    rw [roots, Forest.labels, List.filter_cons_of_neg (by simp [lodged.rule_leaf]),
      List.count_cons_of_ne (by simp), ih lodged.2]
  | node r s below next _ ih =>
    have rule := lodged.holds.rule
    rw [roots, Forest.labels]
    by_cases same : r = x
    · rw [List.filter_cons_of_pos (by simp [rule, same]), same, List.count_cons_self,
        List.length_cons, ih lodged.2.2]
    · rw [List.filter_cons_of_neg (by simp [rule, same]), List.count_cons_of_ne (by simp [same]),
        ih lodged.2.2]

theorem head_roots (lodged : F.Lodged t.nodes parent i)
    (lead : ∀ first ∈ (F.labels kind).head?, first = .rule x) :
    (F.roots i).head? = ((F.roots i).filter (t.rule? · == some x)).head? := by
  cases F with
  | nil => rfl
  | leaf p next => exact absurd (lead (.token (kind p)) rfl) (by simp)
  | node r s below next =>
    have same := lead (.rule r) rfl
    obtain rfl := Label.rule.inj same
    rw [roots, List.filter_cons_of_pos (by simp [lodged.holds.rule])]
    rfl

end Forest.Lodged

namespace Tree.Regular

variable {t : Tree} {kind : Nat → TokenKind} {F : Forest} {limit c n p q : Nat} {r r' x : Rule}
  (regular : t.Regular kind F limit)
include regular

theorem mem_childrenFor (rule : t.rule? n = some x) :
    c ∈ t.childrenFor n r ↔ t.parent? c = some n ∧ t.rule? c = some r := by
  obtain ⟨s, below, held, _⟩ := regular.holds rule
  rw [childrenFor, List.mem_filter, beq_iff_eq, held.children, and_congr_left_iff]
  intro _
  constructor
  · intro member
    exact held.2.parent_root member
  · intro parent
    obtain ⟨_, _, below', held', member⟩ := regular.mem_roots_of_parent parent
    rwa [held.unique held']

/-- A node at the end of a path is the node at its beginning or below it. -/
theorem mem_of_mem_down {path : List Rule} (rule : t.rule? n = some x)
    (member : c ∈ t.down n path) : n ∈ c :: t.ancestors c := by
  induction path generalizing n x with
  | nil =>
    rw [List.mem_singleton.mp member]
    exact List.mem_cons_self
  | cons r path ih =>
    obtain ⟨d, child, member⟩ := List.mem_flatMap.mp member
    obtain ⟨parent, rule'⟩ := (regular.mem_childrenFor rule).mp child
    have above := parent_mem_ancestors parent (regular.parent_lt parent)
    apply List.mem_cons_of_mem
    rcases List.mem_cons.mp (ih rule' member) with rfl | higher
    · exact above
    · exact ancestors_trans above higher

/-- All below a node comes before the node's next sibling. -/
theorem pairwise_roots {G : Forest} {parent : Option Nat} {i : Nat}
    (lodged : G.Lodged t.nodes parent i) :
    (G.roots i).Pairwise fun c d => (∃ r, t.rule? c = some r) →
      ∀ m, c ∈ m :: t.ancestors m → m < d := by
  induction G generalizing i with
  | nil => exact List.Pairwise.nil
  | leaf p next ih =>
    refine List.pairwise_cons.mpr ⟨?_, ih lodged.2⟩
    rintro d - ⟨r, rule⟩
    exact absurd rule (by simp [lodged.rule_leaf])
  | node r s below next _ ih =>
    refine List.pairwise_cons.mpr ⟨?_, ih lodged.2.2⟩
    intro d member _ m above
    have bounds := Forest.mem_roots member
    rcases List.mem_cons.mp above with rfl | above
    · omega
    · rw [regular.mem_ancestors_iff lodged.holds] at above
      omega

theorem pairwise_down (rule : t.rule? n = some x) (path : List Rule) :
    (t.down n path).Pairwise (· < ·) := by
  induction path generalizing n x with
  | nil => exact List.pairwise_singleton _ _
  | cons r path ih =>
    obtain ⟨s, below, held, _⟩ := regular.holds rule
    have apart := regular.pairwise_roots held.2
    rw [← held.children] at apart
    apply List.pairwise_flatMap.mpr
    constructor
    · intro c member
      exact ih (rule_of_mem_childrenFor member)
    · refine (apart.sublist List.filter_sublist).imp_of_mem ?_
      intro c d first second before m member m' member'
      have rule' := rule_of_mem_childrenFor first
      have lt := before ⟨r, rule'⟩ m (regular.mem_of_mem_down rule' member)
      have above := regular.mem_of_mem_down (rule_of_mem_childrenFor second) member'
      rcases List.mem_cons.mp above with rfl | above
      · exact lt
      · exact Nat.lt_trans lt (lt_of_mem_ancestors above)

section Owned

variable (owned : Rule.Owned r' r)
include owned

/-- The nearest query around a part of a clause is the query that has the clause. -/
theorem enclosing_iff (rule : t.rule? n = some r) (query : t.rule? q = some x) :
    t.enclosing? n Rule.isQueryScope = some q ↔ n ∈ t.down q [r', r] := by
  obtain ⟨p, y, parent, above, part⟩ := regular.mem_parts rule owned.inner.1
  obtain rfl := owned.below y part
  obtain ⟨o, z, parent', above', part'⟩ := regular.mem_parts above owned.outer.1
  have nearest : t.enclosing? n Rule.isQueryScope = some o := by
    have other := (isQuery_of_rule above).trans owned.outer.2
    have own := (isQuery_of_rule above').trans (owned.clause z part')
    rw [enclosing_eq_owner ((isQuery_of_rule rule).trans owned.inner.2), owner?,
      queriesAbove_of_other parent (regular.parent_lt parent) other]
    exact owner_of_query parent' (regular.parent_lt parent') own
  rw [nearest, Option.some.injEq, mem_down_pair]
  constructor
  · rintro rfl
    exact ⟨p, (regular.mem_childrenFor above').mpr ⟨parent', above⟩,
      (regular.mem_childrenFor above).mpr ⟨parent, rule⟩⟩
  · rintro ⟨p', clause, item⟩
    obtain ⟨up', clauseRule⟩ := (regular.mem_childrenFor query).mp clause
    obtain ⟨up, _⟩ := (regular.mem_childrenFor clauseRule).mp item
    obtain rfl := Option.some.inj (parent.symm.trans up)
    exact Option.some.inj (parent'.symm.trans up')

theorem filter_enclosing (query : t.rule? q = some x) :
    (List.range t.size).filter (fun n => decide (t.rule? n = some r ∧
        t.enclosing? n Rule.isQueryScope = some q)) = t.down q [r', r] := by
  have sorted := (List.pairwise_lt_range (n := t.size)).sublist
    (List.filter_sublist (p := fun n => decide (t.rule? n = some r ∧
      t.enclosing? n Rule.isQueryScope = some q)))
  refine sorted.eq_of_mem_iff (regular.pairwise_down query _) ?_
  intro n
  rw [List.mem_filter, List.mem_range, decide_eq_true_eq]
  constructor
  · rintro ⟨_, rule, nearest⟩
    exact (regular.enclosing_iff owned rule query).mp nearest
  · intro member
    obtain ⟨p, _, item⟩ := mem_down_pair.mp member
    have rule := rule_of_mem_childrenFor item
    exact ⟨lt_size_of_rule rule, rule, (regular.enclosing_iff owned rule query).mpr member⟩

/-- What a walk reads from the parts of a kind whose nearest query is `q`, in its order. -/
theorem filterMap_entered {α : Type} (query : t.rule? q = some x) (f : Nat → Option α) :
    t.walk.filterMap (fun v => v.entered?.bind fun (n, y) =>
        if y = r ∧ t.enclosing? n Rule.isQueryScope = some q then f n else none) =
      (t.down q [r', r]).filterMap f := by
  obtain ⟨start, below, rfl⟩ := regular.root
  rw [← List.filterMap_filterMap, ← ruleNodes, ruleNodes_eq regular.size regular.lodged,
    List.filterMap_filterMap, ← regular.filter_enclosing owned query, List.filterMap_filter]
  refine List.filterMap_congr fun n _ => ?_
  cases rule : t.rule? n with
  | none => simp
  | some y => simp

end Owned

theorem enter_mem_walk : .enter n r ∈ t.walk ↔ t.rule? n = some r := by
  rw [← regular.mem_ruleNodes, ruleNodes, List.mem_filterMap]
  constructor
  · intro walked
    exact ⟨_, walked, rfl⟩
  · rintro ⟨v, walked, entered⟩
    cases v with
    | enter m y =>
      obtain ⟨rfl, rfl⟩ := Prod.mk.inj (Option.some.inj entered)
      exact walked
    | leave m y => exact absurd entered (by simp [Visit.entered?])

theorem leave_mem_walk : .leave n r ∈ t.walk ↔ t.rule? n = some r := by
  rw [← regular.enter_mem_walk]
  obtain ⟨start, below, rfl⟩ := regular.root
  rw [walk_eq regular.size regular.lodged]
  exact Forest.leave_mem_visits

section Orderly

variable (orderly : Orderly kind F)
include orderly

theorem child_lead (rule : t.rule? n = some r) (lead : r.lead? = some x) :
    t.child? n 0 = (t.childrenFor n x).head? := by
  obtain ⟨s, below, held, _, every⟩ := regular.holds rule
  have arranged : Arranged r (below.labels kind) := every _ orderly
  rw [child?, ← List.head?_eq_getElem?, childrenFor, held.children]
  exact held.2.head_roots (arranged.1 x lead)

theorem length_childrenFor (rule : t.rule? n = some r) (once : r.once? = some x) :
    (t.childrenFor n x).length ≤ 1 := by
  obtain ⟨s, below, held, _, every⟩ := regular.holds rule
  have arranged : Arranged r (below.labels kind) := every _ orderly
  rw [childrenFor, held.children, held.2.length_filter_rule kind]
  exact arranged.2 x once

/-- The source of a query is the first object of the one list of objects that it has. -/
theorem source_eq_some {object : Nat} (query : t.isQuery q = true) :
    t.source? q = some (c, object) ↔ c ∈ t.childrenFor q .fromClause ∧
      ∃ n ∈ t.childrenFor c .fromExprs, t.child? n 0 = some object := by
  obtain ⟨r, rule, own⟩ := rule_of_isQuery query
  have inside (clause : Nat) (member : clause ∈ t.childrenFor q .fromClause) :
      (t.down clause [.fromExprs, .fromExpr]).head? = some object ↔
        ∃ n ∈ t.childrenFor clause .fromExprs, t.child? n 0 = some object := by
    have rule' := rule_of_mem_childrenFor member
    rw [down, List.head?_flatMap, findSome_short (regular.length_childrenFor orderly rule' rfl)]
    refine exists_congr fun n => and_congr_right fun list => ?_
    rw [regular.child_lead orderly (rule_of_mem_childrenFor list) rfl, down]
    simp [down]
  rw [source?,
    findSome_short (regular.length_childrenFor orderly rule (Rule.once_of_query own))]
  constructor
  · rintro ⟨clause, member, found⟩
    obtain ⟨object', first, same⟩ := Option.map_eq_some_iff.mp found
    obtain ⟨rfl, rfl⟩ := Prod.mk.inj same
    exact ⟨member, (inside _ member).mp first⟩
  · rintro ⟨member, list⟩
    exact ⟨c, member, by rw [(inside c member).mpr list]; rfl⟩

theorem objectName_eq {object : Nat} (tokens : TokenStream) (rule : t.rule? n = some .fromExprs)
    (child : t.child? n 0 = some object) : t.objectName? tokens object =
      ((t.child? object 0).bind (t.child? · 0)).bind (QueryScopes.nameAt? t tokens) := by
  rw [regular.child_lead orderly rule rfl] at child
  have objectRule := rule_of_mem_childrenFor (List.mem_of_head? child)
  rw [objectName?, regular.child_lead orderly objectRule rfl]
  cases path : (t.childrenFor object .field).head? with
  | none => rfl
  | some p =>
    have pathRule := rule_of_mem_childrenFor (List.mem_of_head? path)
    rw [Option.bind_some, Option.bind_some, regular.child_lead orderly pathRule rfl]
    cases (t.childrenFor p .identifier).head? with
    | none => rfl
    | some name => simp [QueryScopes.nameAt?, Option.filter]

end Orderly

end Tree.Regular

namespace QueryScopes

variable {t : Tree} {kind : Nat → TokenKind} {F : Forest} {limit q : Nat}
  {tokens : TokenStream}
  (regular : t.Regular kind F limit) (query : t.isQuery q = true)
include regular query

theorem columns_eq :
    t.walk.filterMap (columnNoted? t tokens q) = t.columnNames tokens q := by
  obtain ⟨r, rule, _⟩ := rule_of_isQuery query
  rw [Tree.columnNames, plainNames_eq, List.filterMap_filterMap,
    ← regular.filterMap_entered (Rule.owned_of_mem (by decide)) rule]
  congr 1
  funext v
  cases v with
  | leave n r => cases r <;> rfl
  | enter n r => cases r <;> simp [columnNoted?, Visit.entered?]

theorem groups_eq :
    (t.walk.filterMap (groupsNoted? t tokens q)).getLast?.getD [] = t.groupNames tokens q := by
  obtain ⟨r, rule, _⟩ := rule_of_isQuery query
  simp only [Tree.groupNames, ← List.filterMap_eq_filter, List.filterMap_map]
  rw [← regular.filterMap_entered (Rule.owned_of_mem (by decide)) rule]
  congr 3
  funext v
  cases v with
  | leave n r => cases r <;> rfl
  | enter n r =>
    cases r <;> simp [groupsNoted?, Visit.entered?]
    -- A list of groups without a name is passed over on both sides.
    rw [plainNames_eq]
    split
    · cases (t.childrenFor n .field).filterMap (singleName? t tokens) <;> rfl
    · rfl

section Source

variable (orderly : Orderly kind F)
include orderly

theorem mem_sources {y : Option Nat × Option String} :
    y ∈ t.walk.filterMap (sourceNoted? t tokens q) ↔
      (t.source? q).map (fun found => (t.start? found.1, t.objectName? tokens found.2)) =
        some y := by
  obtain ⟨r, rule, _⟩ := rule_of_isQuery query
  have owned : Rule.Owned .fromClause .fromExprs := Rule.owned_of_mem (by decide)
  rw [List.mem_filterMap, Option.map_eq_some_iff]
  constructor
  · rintro ⟨v, walked, noted⟩
    rw [sourceNoted?.eq_def] at noted
    split at noted
    · rename_i n
      have list := regular.leave_mem_walk.mp walked
      split at noted
      · rename_i nearest
        obtain ⟨object, first, rfl⟩ := Option.map_eq_some_iff.mp noted
        have own := (regular.enclosing_iff owned list rule).mp nearest
        obtain ⟨c, clause, item⟩ := mem_down_pair.mp own
        have found := (regular.source_eq_some orderly query).mpr ⟨clause, n, item, first⟩
        have up := ((regular.mem_childrenFor (rule_of_mem_childrenFor clause)).mp item).1
        refine ⟨(c, object), found, ?_⟩
        rw [up, regular.objectName_eq orderly tokens list first]
        rfl
      · exact absurd noted (by simp)
    · exact absurd noted (by simp)
  · rintro ⟨⟨c, object⟩, found, rfl⟩
    obtain ⟨clause, n, item, first⟩ := (regular.source_eq_some orderly query).mp found
    have list := rule_of_mem_childrenFor item
    have up := ((regular.mem_childrenFor (rule_of_mem_childrenFor clause)).mp item).1
    have nearest := (regular.enclosing_iff owned list rule).mpr
      (mem_down_pair.mpr ⟨c, clause, item⟩)
    refine ⟨.leave n .fromExprs, regular.leave_mem_walk.mpr list, ?_⟩
    rw [sourceNoted?, if_pos nearest, first, up, regular.objectName_eq orderly tokens list first]
    rfl

theorem sources_eq (tokens : TokenStream) :
    (t.walk.filterMap (sourceNoted? t tokens q)).getLast? =
      (t.source? q).map fun found => (t.start? found.1, t.objectName? tokens found.2) := by
  apply Option.ext
  intro y
  rw [← mem_sources regular query orderly]
  constructor
  · exact List.mem_of_getLast?
  · intro member
    -- All members are the one source, the last among them.
    have last := List.getLast?_eq_some_getLast (List.ne_nil_of_mem member)
    have first := (mem_sources regular query orderly).mp member
    have second := (mem_sources regular query orderly).mp (List.mem_of_getLast? last)
    rw [last, ← Option.some.inj (first.symm.trans second)]

end Source

/-- The entry of a query is what the moments of the whole walk note about it. -/
theorem get_ofTree {k : Nat} (tokens : TokenStream) (start : t.start? q = some k) :
    (ofTree t tokens).get? k = some (t.walk.foldl (noted t tokens q) (blank t q)) := by
  obtain ⟨r, rule, own⟩ := rule_of_isQuery query
  obtain ⟨s, backed⟩ := regular.exists_backs query
  have apart (p : Nat) (query' : t.isQuery p = true) (start' : t.start? p = some k) : p = q :=
    regular.eq_of_start query' query start' start
  have visits : t.walk.Pairwise fun v w => ∀ x ∈ w.entered?, v.node < x.1 := by
    obtain ⟨start, below, rfl⟩ := regular.root
    rw [walk_eq regular.size regular.lodged]
    exact Forest.pairwise_visits _ 0
  -- Before the query is entered nothing is noted about it, and afterwards it is not entered again.
  obtain ⟨before, after, split⟩ := List.mem_iff_append.mp (regular.enter_mem_walk.mpr rule)
  have entries (v : Visit) (member : v ∈ t.walk) (p : Nat) (entered : v.query? = some p) :
      t.isQuery p = true ∧ ∃ r, v.entered? = some (p, r) := by
    cases v with
    | leave n r => exact absurd entered (by simp [Visit.query?])
    | enter n r =>
      simp only [Visit.query?, Option.ite_none_right_eq_some, Option.some.injEq] at entered
      obtain ⟨own', rfl⟩ := entered
      exact ⟨(isQuery_of_rule (regular.enter_mem_walk.mp member)).trans own', r, rfl⟩
  rw [split] at visits
  obtain ⟨_, later, earlier⟩ := List.pairwise_append.mp visits
  rw [ofTree, split]
  refine get?_foldl_walk start apart rule own backed.spanStart ?_ ?_
  · intro v member
    exact earlier v member _ List.mem_cons_self (q, r) rfl
  · intro v member p entered
    have walked : v ∈ t.walk := by
      rw [split]
      exact List.mem_append_right _ (List.mem_cons_of_mem _ member)
    obtain ⟨query', r', known⟩ := entries v walked p entered
    have lt := (List.pairwise_cons.mp later).1 v member (p, r') known
    exact ⟨query', Nat.ne_of_gt lt⟩

theorem describes_walk (orderly : Orderly kind F) (tokens : TokenStream) :
    t.Describes tokens q (t.walk.foldl (noted t tokens q) (blank t q)) := by
  obtain ⟨r, rule, own⟩ := rule_of_isQuery query
  have source : ((t.walk.foldl (noted t tokens q) (blank t q)).fromToken,
      (t.walk.foldl (noted t tokens q) (blank t q)).objectName) =
        ((t.source? q).map fun found =>
          (t.start? found.1, t.objectName? tokens found.2)).getD (none, none) := by
    rw [source_foldl, sources_eq regular query orderly]
    rfl
  constructor
  · rw [isSemiJoin_foldl, blank, beq_iff_eq]
  · exact regular.length_childrenFor orderly rule (Rule.once_of_query own)
  · refine (congrArg Prod.fst source).trans ?_
    cases t.source? q <;> rfl
  · refine (congrArg Prod.snd source).trans ?_
    cases t.source? q <;> rfl
  · rw [selectedFields_foldl, columns_eq regular query]
    rfl
  · rw [groupByFields_foldl]
    exact groups_eq regular query

end QueryScopes

theorem parse_orderly (tokens : TokenStream) :
    ∃ F, (parseTokens tokens).tree.Regular tokens.kindAt F tokens.size ∧
      Orderly tokens.kindAt F := by
  obtain ⟨start, below, s', grows, _, planted⟩ := parse_planted tokens
  have sourced := grows_query (fun _ _ _ _ => sourced_of_made) grows
  have spaced := grows_query (fun _ _ _ _ => spaced_of_made) grows
  exact ⟨_, ⟨planted, ⟨start, below, rfl⟩, sourced.conforms.nested, sourced.conforms.shaped,
    spaced⟩, sourced.orderly⟩

/-- The queries of a parse begin at different tokens; each has one scope, found under its first
token, and this scope says what the query's own part of the tree does. -/
theorem scopes_describe_queries (tokens : TokenStream) :
    let t := (parseTokens tokens).tree
    let scopes := QueryScopes.ofTree t tokens
    (t.queries.map t.start?).Nodup ∧
      List.Forall₂ (fun q s => t.start? q = some s.selectToken ∧
          scopes.get? s.selectToken = some s ∧ t.Describes tokens q s)
        t.queries scopes.toList := by
  intro t scopes
  obtain ⟨F, regular, orderly⟩ := parse_orderly tokens
  constructor
  · rw [List.nodup_iff_pairwise_ne, List.pairwise_map]
    apply regular.pairwise_before.imp
    rintro p q ⟨a, b, first, second, lt⟩ same
    rw [first, second, Option.some.injEq] at same
    exact Nat.ne_of_lt lt same
  · have backs := QueryScopes.scopeOf_backs (ofParsed_backs regular) regular.pairwise_before
    refine List.forall₂_iff_zip.mpr ⟨backs.length_eq, fun {q s} pair => ?_⟩
    obtain ⟨found, backed⟩ := List.forall₂_zip backs pair
    have query : t.isQuery q = true := mem_queries.mp (List.of_mem_zip pair).1
    have entry : scopes.get? s.selectToken = some s := by
      rw [QueryScopes.scopeOf?, backed.start] at found
      exact found
    have walked := QueryScopes.get_ofTree regular query tokens backed.start
    have same := Option.some.inj (entry.symm.trans walked)
    refine ⟨backed.start, entry, ?_⟩
    rw [same]
    exact QueryScopes.describes_walk regular query orderly tokens

end SoqlAssist
