import Mathlib.Data.List.MinMax
import SoqlAssist.Proofs.Query.Nesting

/-!
Conditions and the queries that they belong to. A condition stands in a filter of its query, behind
the select list; a query as an operand of `IN` is below one condition of the query around it. So
where the query of the nearest condition covers a position, the only queries inside it that can
cover the position too are below that condition.
-/
namespace SoqlAssist

open SoqlAssist.Tree

namespace Tree

def owner? (t : Tree) (n : Nat) : Option Nat :=
  (t.queriesAbove n).head?

section

variable {t : Tree} {n p q : Nat}

theorem enclosing_eq_owner (other : t.isQuery n = false) :
    t.enclosing? n Rule.isQueryScope = t.owner? n := by
  rw [isQuery] at other
  rw [enclosing?, List.find?_cons_of_neg (by simp [other]), owner?, queriesAbove, List.head?_filter]
  rfl

theorem mem_of_owner (owner : t.owner? n = some q) : q ∈ t.ancestors n ∧ t.isQuery q = true :=
  mem_queriesAbove.mp (List.mem_of_head? owner)

theorem queriesAbove_of_other (parent : t.parent? n = some p) (lt : p < n)
    (other : t.isQuery p = false) : t.queriesAbove n = t.queriesAbove p := by
  rw [queriesAbove, ancestors_cons parent lt, List.filter_cons_of_neg (by simp [other])]
  rfl

theorem owner_of_query (parent : t.parent? n = some p) (lt : p < n)
    (query : t.isQuery p = true) : t.owner? n = some p := by
  rw [owner?, queriesAbove, ancestors_cons parent lt, List.filter_cons_of_pos query]
  rfl

/-- The queries above a node are its owner and the queries above that. -/
theorem queriesAbove_of_owner (owner : t.owner? n = some q) :
    t.queriesAbove n = q :: t.queriesAbove q := by
  induction n using Nat.strongRecOn with
  | _ n ih =>
    obtain ⟨p, parent, lt, _⟩ := mem_ancestors (mem_of_owner owner).1
    cases query : t.isQuery p with
    | true =>
      obtain rfl := Option.some.inj (owner.symm.trans (owner_of_query parent lt query))
      rw [queriesAbove, ancestors_cons parent lt, List.filter_cons_of_pos query]
      rfl
    | false =>
      have same := queriesAbove_of_other parent lt query
      rw [same]
      exact ih p lt (by rw [owner?, ← same]; exact owner)

/-- On the way up from a query to one above it there is a query right below that one. -/
theorem exists_owned (query : t.isQuery p = true) (above : q ∈ t.queriesAbove p) :
    ∃ m ∈ p :: t.queriesAbove p, t.isQuery m = true ∧ t.owner? m = some q := by
  induction p using Nat.strongRecOn with
  | _ p ih =>
    obtain ⟨m, rest, split⟩ := List.exists_cons_of_ne_nil (List.ne_nil_of_mem above)
    have owner : t.owner? p = some m := by
      rw [owner?, split]
      rfl
    rw [queriesAbove_of_owner owner] at above ⊢
    rcases List.mem_cons.mp above with rfl | higher
    · exact ⟨p, List.mem_cons_self, query, owner⟩
    · obtain ⟨inner, own⟩ := mem_of_owner owner
      obtain ⟨m', listed, query', owner'⟩ := ih m (lt_of_mem_ancestors inner) own higher
      exact ⟨m', List.mem_cons_of_mem _ listed, query', owner'⟩

end

namespace Regular

variable {t : Tree} {kind : Nat → TokenKind} {F : Forest} {limit a b c d i n p q : Nat} {r : Rule}

def filterRules : List Rule := [.whereExpr, .whereExprs, .whereClause, .havingClause]

theorem filter_part {r r' : Rule} (member : r ∈ filterRules) (part : r ∈ r'.parts) :
    (r = .whereClause ∨ r = .havingClause) ∧ r'.isQueryScope = true ∨
      r' ∈ filterRules ∧ r' ≠ .whereExpr ∧ r'.isQueryScope = false := by
  simp only [filterRules, List.mem_cons, List.not_mem_nil, or_false] at member
  rcases member with rfl | rfl | rfl | rfl
  all_goals cases r' <;> simp [Rule.parts, Rule.isQueryScope, filterRules] at part ⊢

/-- A filter belongs to the query right above its clause, and no condition is on the way. -/
theorem filter_owner (regular : t.Regular kind F limit) (rule : t.rule? n = some r)
    (member : r ∈ filterRules) :
    ∃ q w r', t.owner? n = some q ∧ t.parent? w = some q ∧ w ∈ n :: t.ancestors n ∧
      t.rule? w = some r' ∧ (r' = .whereClause ∨ r' = .havingClause) ∧
        ∀ x ∈ t.ancestors n, q < x → t.rule? x ≠ some .whereExpr := by
  induction n using Nat.strongRecOn generalizing r with
  | _ n ih =>
    have inner : r ≠ .query := by
      rintro rfl
      simp [filterRules] at member
    obtain ⟨p, r', parent, above, part⟩ := regular.mem_parts rule inner
    have lt := regular.parent_lt parent
    rcases filter_part member part with ⟨clause, query⟩ | ⟨filter, other, plain⟩
    · have own : t.owner? n = some p :=
        owner_of_query parent lt ((isQuery_of_rule above).trans query)
      refine ⟨p, n, r, own, parent, List.mem_cons_self, rule, clause, ?_⟩
      intro x member' later
      rw [ancestors_cons parent lt] at member'
      rcases List.mem_cons.mp member' with rfl | higher
      · exact absurd later (Nat.lt_irrefl _)
      · exact absurd later (Nat.lt_asymm (lt_of_mem_ancestors higher))
    · obtain ⟨q, w, r'', own, below, listed, clauseRule, clause, free⟩ := ih p lt above filter
      have same := queriesAbove_of_other parent lt ((isQuery_of_rule above).trans plain)
      rw [owner?, ← same] at own
      refine ⟨q, w, r'', own, below, ?_, clauseRule, clause, ?_⟩
      · rw [ancestors_cons parent lt]
        exact List.mem_cons_of_mem _ listed
      · intro x member' later
        rw [ancestors_cons parent lt] at member'
        rcases List.mem_cons.mp member' with rfl | higher
        · rw [above]
          exact fun same => other (Option.some.inj same)
        · exact free x higher later

/-- A condition that comes later starts later. -/
theorem condition_start_lt (regular : t.Regular kind F limit) (first : t.rule? c = some .whereExpr)
    (second : t.rule? d = some .whereExpr) (lt : c < d) (start : t.start? c = some a)
    (start' : t.start? d = some b) : a < b := by
  have spaced := regular.spaced
  have within : d < t.size := lt_size_of_rule second
  rw [← regular.lodged.map_rule, ← regular.size] at spaced
  have rest := spaced.drop (Nat.zero_le c) (by omega) first
  obtain ⟨m, lower, upper, none⟩ := rest.exists_none (n := d) (by omega) (by omega) second
  rcases regular.lodged.locate (n := m) (Nat.zero_le m) (regular.lt_forest_size (by omega)) with
    ⟨p, token, _⟩ | ⟨r, s, below, held, _⟩
  · exact Nat.lt_of_le_of_lt (regular.start_le (by omega) token start)
      (regular.lt_start upper token start')
  · exact absurd none (by simp [held.rule])

/-- A condition of a query that comes after another is not below it. -/
theorem not_above_condition (regular : t.Regular kind F limit)
    (first : t.rule? c = some .whereExpr) (second : t.rule? d = some .whereExpr)
    (owner : t.owner? c = t.owner? d) : c ∉ t.ancestors d := by
  intro above
  obtain ⟨q, _, _, own, _, _, _, _, free⟩ := regular.filter_owner second (by simp [filterRules])
  have higher := (mem_of_owner (owner.trans own)).1
  exact free c above (lt_of_mem_ancestors higher) first

/-- The select list of a query ends before its filters. -/
theorem select_before_filter {s e w : Nat} {body : Forest} {r' : Rule}
    (regular : t.Regular kind F limit) (query : t.rule? q = some .innerQuery)
    (parent : t.parent? e = some q) (held : t.Holds e .selectExprs s body)
    (parent' : t.parent? w = some q) (rule : t.rule? w = some r') (other : r' ≠ .selectExprs) :
    e + body.size < w := by
  obtain ⟨_, _, below, held', child⟩ := regular.mem_roots_of_parent parent
  obtain ⟨_, _, below', held'', child'⟩ := regular.mem_roots_of_parent parent'
  obtain rfl := held''.unique held'
  obtain ⟨s', body', again, _, every⟩ := regular.holds query
  obtain rfl := again.unique held'
  obtain ⟨first, rest, labels, tokens, single⟩ := every _ regular.shaped
  obtain ⟨A, H, rfl, named, tail⟩ := Forest.labels_eq_append labels
  obtain ⟨s₁, B, C, rfl, named'⟩ := Forest.labels_eq_rule tail
  obtain ⟨lodged, lodged'⟩ := Forest.Lodged.append_iff.mp again.2
  rw [Forest.roots_append] at child child'
  -- The list is the only child of its kind, and the tokens before it are no clauses.
  have place : e = q + 1 + A.size := by
    rcases List.mem_append.mp child with member | member
    · exact absurd (named ▸ lodged.mem_labels member held.rule) (tokens _)
    rcases List.mem_cons.mp member with same | member
    · exact same
    · exact absurd (named' ▸ lodged'.2.2.mem_labels member held.rule) single
  subst place
  obtain rfl := held.unique lodged'.holds
  rcases List.mem_append.mp child' with member | member
  · exact absurd (named ▸ lodged.mem_labels member rule) (tokens _)
  rcases List.mem_cons.mp member with rfl | member
  · exact absurd (Option.some.inj (rule.symm.trans held.rule)) other
  · have bound := Forest.mem_roots member
    omega

/-- Right above a query in a select list stand its column, the list and the query of the list. -/
theorem select_owner (regular : t.Regular kind F limit) (bracketed : t.Bracketed kind a q)
    (rule : t.rule? a = some .selectExpr) :
    ∃ e p, t.parent? a = some e ∧ t.rule? e = some .selectExprs ∧ t.parent? e = some p ∧
      t.rule? p = some .innerQuery ∧ t.owner? q = some p := by
  obtain ⟨e, r, parent, above, part⟩ := regular.mem_parts rule (by simp)
  obtain rfl : r = .selectExprs := by cases r <;> simp [Rule.parts] at part ⊢
  obtain ⟨p, r, parent', above', part'⟩ := regular.mem_parts above (by simp)
  obtain rfl : r = .innerQuery := by cases r <;> simp [Rule.parts] at part' ⊢
  refine ⟨e, p, parent, above, parent', above', ?_⟩
  rw [owner?, queriesAbove_of_other bracketed.parent (regular.parent_lt bracketed.parent)
      (isQuery_of_rule rule),
    queriesAbove_of_other parent (regular.parent_lt parent) (isQuery_of_rule above)]
  exact owner_of_query parent' (regular.parent_lt parent') (isQuery_of_rule above')

/-- Right above a query as an operand stand its list and its condition. -/
theorem operand_owner (regular : t.Regular kind F limit) (bracketed : t.Bracketed kind a q)
    (rule : t.rule? a = some .inList) :
    ∃ c, t.parent? a = some c ∧ t.rule? c = some .whereExpr ∧ t.owner? q = t.owner? c := by
  obtain ⟨c, r, parent, above, part⟩ := regular.mem_parts rule (by simp)
  obtain rfl : r = .whereExpr := by cases r <;> simp [Rule.parts] at part ⊢
  refine ⟨c, parent, above, ?_⟩
  rw [owner?, queriesAbove_of_other bracketed.parent (regular.parent_lt bracketed.parent)
      (isQuery_of_rule rule),
    queriesAbove_of_other parent (regular.parent_lt parent) (isQuery_of_rule above)]
  rfl

end Regular

end Tree

namespace Analysis

variable {t : Tree} {c d i : Nat}

/-- The conditions that start at or before a position, with their distances. -/
def conditionsBefore (t : Tree) (i : Nat) : List (Nat × Nat) :=
  t.ruleNodes.filterMap fun (id, rule) =>
    match rule, t.start? id with
    | .whereExpr, some start => if start ≤ i then some (id, i - start) else none
    | _, _ => none

theorem nearestCondition_eq (t : Tree) (i : Nat) :
    nearestCondition? t i = ((conditionsBefore t i).argmin (·.2)).map (·.1) := by
  rw [nearestCondition?, conditionsBefore, List.argmin, List.foldl_filterMap]
  simp only
  congr 2
  funext best node
  obtain ⟨id, rule⟩ := node
  cases rule <;> cases t.start? id <;> try rfl
  rename_i start
  by_cases le : start ≤ i
  · cases best <;> simp [le, nearer, List.argAux]
  · simp [le]

theorem mem_conditionsBefore (nodes : ∀ n r, (n, r) ∈ t.ruleNodes ↔ t.rule? n = some r) :
    (c, d) ∈ conditionsBefore t i ↔
      t.rule? c = some .whereExpr ∧ ∃ s, t.start? c = some s ∧ s ≤ i ∧ d = i - s := by
  rw [conditionsBefore, List.mem_filterMap]
  constructor
  · rintro ⟨⟨n, r⟩, member, found⟩
    have rule := (nodes n r).mp member
    simp only at found
    split at found
    · rename_i start known
      split at found
      · rename_i le
        obtain ⟨rfl, rfl⟩ := Prod.mk.inj (Option.some.inj found)
        exact ⟨rule, start, known, le, rfl⟩
      · exact absurd found (by simp)
    · exact absurd found (by simp)
  · rintro ⟨rule, s, start, le, rfl⟩
    exact ⟨(c, .whereExpr), (nodes c _).mpr rule, by simp [start, le]⟩

/-- The nearest condition is one that starts at or before the position, and none of these starts
later. -/
theorem nearestCondition_spec (nodes : ∀ n r, (n, r) ∈ t.ruleNodes ↔ t.rule? n = some r)
    (found : nearestCondition? t i = some c) :
    t.rule? c = some .whereExpr ∧ ∃ s, t.start? c = some s ∧ s ≤ i ∧
      ∀ d s', t.rule? d = some .whereExpr → t.start? d = some s' → s' ≤ i → s' ≤ s := by
  rw [nearestCondition_eq, Option.map_eq_some_iff] at found
  obtain ⟨⟨c', d⟩, least, rfl⟩ := found
  obtain ⟨rule, s, start, le, rfl⟩ := (mem_conditionsBefore nodes).mp (List.argmin_mem least)
  refine ⟨rule, s, start, le, fun d s' rule' start' le' => ?_⟩
  have listed := (mem_conditionsBefore nodes).mpr ⟨rule', s', start', le', rfl⟩
  have nearer := List.le_of_mem_argmin listed least
  simp only at nearer
  omega

end Analysis

namespace Tree.Regular

variable {t : Tree} {kind : Nat → TokenKind} {F : Forest} {limit a c d i p q s : Nat}

theorem mem_ruleNodes (regular : t.Regular kind F limit) (n : Nat) (r : Rule) :
    (n, r) ∈ t.ruleNodes ↔ t.rule? n = some r := by
  obtain ⟨start, below, rfl⟩ := regular.root
  rw [ruleNodes_eq regular.size regular.lodged, List.mem_filterMap]
  constructor
  · rintro ⟨m, _, found⟩
    obtain ⟨r', rule, same⟩ := Option.map_eq_some_iff.mp found
    obtain ⟨rfl, rfl⟩ := Prod.mk.inj same
    exact rule
  · intro rule
    exact ⟨n, List.mem_range.mpr (lt_size_of_rule rule), by rw [rule]; rfl⟩

/-- A node that starts where a rule still spans tokens does not come after it. -/
theorem not_after {r : Rule} {below : Forest} {e m n : Nat} (regular : t.Regular kind F limit)
    (held : t.Holds a r m below) (stop : t.stop? a = some e) (le : i ≤ e)
    (start : t.start? n = some s) (first : s ≤ i) : n ≤ a + below.size := by
  by_contra outside
  have apart := regular.stop_lt held stop (Nat.lt_of_not_le outside) start
  omega

section Nearest

variable (regular : t.Regular kind F limit) (rule : t.rule? c = some .whereExpr)
  (owner : t.owner? c = some q) (start : t.start? c = some s) (le : s ≤ i)
include regular rule owner start le

/-- A query in the select list of the condition's query ends before the condition. -/
theorem not_covers_column (bracketed : t.Bracketed kind a p)
    (column : t.rule? a = some .selectExpr) (owned : t.owner? p = some q) :
    t.covers i p ≠ true := by
  intro covered
  obtain ⟨_, e, _, stop, _, before⟩ := covers_iff.mp covered
  rw [around_eq bracketed.parent] at stop
  obtain ⟨x, _, parent, lists, parent', outer, own⟩ := regular.select_owner bracketed column
  obtain rfl := Option.some.inj (own.symm.trans owned)
  obtain ⟨_, w, r, own', below, clause, clauseRule, kinds, _⟩ :=
    regular.filter_owner rule (by simp [filterRules])
  obtain rfl := Option.some.inj (own'.symm.trans owner)
  obtain ⟨_, body, held, _⟩ := regular.holds lists
  have apart := regular.select_before_filter outer parent' held below clauseRule
    (by rcases kinds with rfl | rfl <;> simp)
  obtain ⟨e', stop', wider⟩ := regular.span_above
    (parent_mem_ancestors parent (regular.parent_lt parent)) lists column stop
  have bound := regular.not_after held stop' (by omega) start le
  have first : w ≤ c := by
    rcases List.mem_cons.mp clause with rfl | higher
    · exact Nat.le_refl w
    · exact Nat.le_of_lt (lt_of_mem_ancestors higher)
  omega

variable
  (nearest : ∀ d s', t.rule? d = some .whereExpr → t.start? d = some s' → s' ≤ i → s' ≤ s)
include nearest

/-- The nearest condition is the one around a query that is an operand in the condition's query and
covers the position. -/
theorem parent_operand (bracketed : t.Bracketed kind a p) (list : t.rule? a = some .inList)
    (owned : t.owner? p = some q) (covered : t.covers i p = true) : t.parent? a = some c := by
  obtain ⟨s₁, e, start', stop, after, before⟩ := covers_iff.mp covered
  rw [around_eq bracketed.parent] at start' stop
  obtain ⟨d, parent, condition, own⟩ := regular.operand_owner bracketed list
  have higher := parent_mem_ancestors parent (regular.parent_lt parent)
  obtain ⟨s₂, body, held, _⟩ := regular.holds condition
  have first := regular.start_mono (Nat.le_of_lt (lt_of_mem_ancestors higher)) held.start start'
  have latest := nearest d s₂ condition held.start (by omega)
  obtain ⟨e', stop', wider⟩ := regular.span_above higher condition list stop
  have bound := regular.not_after held stop' (by omega) start le
  have same : t.owner? d = t.owner? c := by rw [← own, owned, owner]
  obtain rfl : c = d := by
    apply Nat.le_antisymm
    · by_contra later
      have inside := (regular.mem_ancestors_iff held).mpr ⟨Nat.lt_of_not_le later, bound⟩
      exact regular.not_above_condition condition rule same inside
    · by_contra earlier
      have apart := regular.condition_start_lt rule condition (Nat.lt_of_not_le earlier) start
        held.start
      omega
  exact parent

/-- If a query inside that of the nearest condition covers the position, one below that condition
does. -/
theorem covers_below_nearest (query : t.isQuery p = true) (covered : t.covers i p = true)
    (above : q ∈ t.queriesAbove p) :
    ∃ m, t.isQuery m = true ∧ c ∈ t.ancestors m ∧ t.covers i m = true := by
  obtain ⟨m, listed, inner, owned⟩ := exists_owned query above
  have covered' : t.covers i m = true := by
    rcases List.mem_cons.mp listed with rfl | higher
    · exact covered
    · exact regular.covers_above query covered higher
  rcases regular.query_cases inner with rfl | ⟨a, bracketed⟩
  · have smaller := lt_of_mem_ancestors (mem_of_owner owned).1
    obtain rfl : q = 0 := by omega
    exact absurd (mem_of_owner owned).2 (by simp [regular.isQuery_zero])
  rcases bracketed.rule with column | list
  · exact absurd covered' (regular.not_covers_column rule owner start le bracketed column owned)
  · have parent := regular.parent_operand rule owner start le nearest bracketed list owned covered'
    refine ⟨m, inner, ?_, covered'⟩
    exact ancestors_trans (parent_mem_ancestors parent (regular.parent_lt parent))
      (parent_mem_ancestors bracketed.parent (regular.parent_lt bracketed.parent))

end Nearest

end Tree.Regular

end SoqlAssist
