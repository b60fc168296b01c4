import SoqlAssist.Proofs.Grammar.Pace
import SoqlAssist.Proofs.Grammar.Shape
import SoqlAssist.Proofs.Query.Leaves
import SoqlAssist.Proofs.Query.Scope

/-!
The places of the query nodes in the tree of a parse. The document's query comes right below the
root, next to which there are only tokens; every other query stands between parentheses below a rule
that holds nothing else.
-/
namespace SoqlAssist

open Grammar

namespace Forest

variable {kind : Nat → TokenKind} {F : Forest} {labels : List Label}

theorem labels_eq_nil (same : F.labels kind = []) : F = .nil := by
  cases F with
  | nil => rfl
  | leaf p next => simp [Forest.labels] at same
  | node r s below next => simp [Forest.labels] at same

theorem labels_eq_token {k : TokenKind} (same : F.labels kind = .token k :: labels) :
    ∃ p next, F = .leaf p next ∧ kind p = k ∧ next.labels kind = labels := by
  cases F with
  | nil => simp [Forest.labels] at same
  | leaf p next =>
    simp only [Forest.labels, List.cons.injEq, Label.token.injEq] at same
    exact ⟨p, next, rfl, same⟩
  | node r s below next => simp [Forest.labels] at same

theorem labels_eq_rule {r : Rule} (same : F.labels kind = .rule r :: labels) :
    ∃ s below next, F = .node r s below next ∧ next.labels kind = labels := by
  cases F with
  | nil => simp [Forest.labels] at same
  | leaf p next => simp [Forest.labels] at same
  | node r' s below next =>
    simp only [Forest.labels, List.cons.injEq, Label.rule.injEq] at same
    obtain ⟨rfl, same⟩ := same
    exact ⟨s, below, next, rfl, same⟩

theorem labels_eq_append {labels' : List Label} (same : F.labels kind = labels ++ labels') :
    ∃ G H, F = G ++ H ∧ G.labels kind = labels ∧ H.labels kind = labels' := by
  induction labels generalizing F with
  | nil => exact ⟨.nil, F, rfl, rfl, same⟩
  | cons x labels ih =>
    cases x with
    | token k =>
      obtain ⟨p, next, rfl, found, rest⟩ := labels_eq_token same
      obtain ⟨G, H, rfl, first, second⟩ := ih rest
      exact ⟨.leaf p G, H, rfl, by rw [Forest.labels, found, first], second⟩
    | rule r =>
      obtain ⟨s, below, next, rfl, rest⟩ := labels_eq_rule same
      obtain ⟨G, H, rfl, first, second⟩ := ih rest
      exact ⟨.node r s below G, H, rfl, by rw [Forest.labels, first], second⟩

theorem of_encloses {r : Rule} (encloses : Encloses r (F.labels kind)) :
    ∃ i s below tail, F = .leaf i (.node r s below tail) ∧ kind i = .lParen ∧
      (tail = .nil ∨ ∃ c, tail = .leaf c .nil ∧ kind c = .rParen) := by
  rcases encloses with labels | labels
  all_goals
    obtain ⟨i, next, rfl, opened, after⟩ := labels_eq_token labels
    obtain ⟨s, below, tail, rfl, last⟩ := labels_eq_rule after
    refine ⟨i, s, below, tail, rfl, opened, ?_⟩
  · exact .inl (labels_eq_nil last)
  · obtain ⟨c, empty, rfl, closed, none⟩ := labels_eq_token last
    obtain rfl := labels_eq_nil none
    exact .inr ⟨c, rfl, closed⟩

/-- A tree of a row that stands for a rule is among its labels. -/
theorem Lodged.mem_labels {t : Tree} {parent : Option Nat} {i c : Nat} {r : Rule}
    (lodged : F.Lodged t.nodes parent i) (member : c ∈ F.roots i) (rule : t.rule? c = some r) :
    .rule r ∈ F.labels kind := by
  induction F generalizing i with
  | nil => exact absurd member List.not_mem_nil
  | leaf p next ih =>
    rcases List.mem_cons.mp member with rfl | member
    · exact absurd rule (by simp [lodged.rule_leaf])
    · exact List.mem_cons_of_mem _ (ih lodged.2 member)
  | node r' s below next _ ih =>
    rcases List.mem_cons.mp member with rfl | member
    · obtain rfl := Option.some.inj (rule.symm.trans lodged.holds.rule)
      exact List.mem_cons_self
    · exact List.mem_cons_of_mem _ (ih lodged.2.2 member)

/-- A row without rules is a row of tokens. -/
theorem Lodged.tokens_only {t : Tree} {parent : Option Nat} {i n : Nat}
    (lodged : F.Lodged t.nodes parent i) (tokens : ∀ r, .rule r ∉ F.labels kind) (lower : i ≤ n)
    (upper : n < i + F.size) : t.parent? n = parent ∧ ∃ p, t.token? n = some p := by
  induction F generalizing i with
  | nil =>
    rw [size] at upper
    omega
  | leaf p next ih =>
    rw [size] at upper
    rcases Nat.eq_or_lt_of_le lower with rfl | later
    · exact ⟨lodged.parent_root List.mem_cons_self, p, lodged.token_leaf⟩
    · exact ih lodged.2 (fun r member => tokens r (List.mem_cons_of_mem _ member)) later (by omega)
  | node r s below next => exact absurd List.mem_cons_self (tokens r)

end Forest

theorem Tree.rule_of_token {t : Tree} {n i : Nat} (token : t.token? n = some i) :
    t.rule? n = none := by
  rw [token?] at token
  rw [rule?]
  split at token
  · simp_all
  · simp at token

namespace Tree

/-- The tree of a parse: a query over a forest in which below each rule stands what can and the
conditions are apart. -/
structure Regular (t : Tree) (kind : Nat → TokenKind) (F : Forest) (limit : Nat) : Prop
    extends t.Planted F limit where
  root : ∃ start below, F = .node .query start below .nil
  nested : Nested kind F
  shaped : Shaped kind F
  spaced : Spaced false F.rules

/-- The query `q` stands between parentheses, of which the closing one can be missing, and right
below `a` there is nothing else. -/
structure Bracketed (t : Tree) (kind : Nat → TokenKind) (a q : Nat) : Prop where
  place : q = a + 2
  parent : t.parent? q = some a
  rule : t.rule? a = some .selectExpr ∨ t.rule? a = some .inList
  opening : ∃ i, t.token? (a + 1) = some i ∧ kind i = .lParen
  rest : ∀ n, a ∈ t.ancestors n → n = a + 1 ∨ n = q ∨ q ∈ t.ancestors n ∨
    t.parent? n = some a ∧ ∃ i, t.token? n = some i ∧ kind i = .rParen

namespace Regular

variable {t : Tree} {kind : Nat → TokenKind} {F : Forest} {limit a n q : Nat} {r : Rule}

theorem lt_forest_size (regular : t.Regular kind F limit) (lt : n < t.size) : n < 0 + F.size := by
  rw [Nat.zero_add, ← regular.size]
  exact lt

/-- Every node but the first is right below a rule that can have it. -/
theorem child (regular : t.Regular kind F limit) (positive : 0 < n) (lt : n < t.size) :
    ∃ a r s below, t.Holds a r s below ∧ n ∈ below.roots (a + 1) ∧ t.parent? n = some a ∧
      Within kind below r.parts ∧ Shape r (below.labels kind) := by
  obtain ⟨start, body, rfl⟩ := regular.root
  rcases regular.lodged.child_of (Nat.zero_le n) (regular.lt_forest_size lt) with
    root | ⟨a, r, s, below, held, child, every⟩
  · simp only [Forest.roots, List.mem_singleton] at root
    omega
  · exact ⟨a, r, s, below, held, child, held.2.parent_root child, every _ regular.nested,
      every _ regular.shaped⟩

theorem rule_zero (regular : t.Regular kind F limit) : t.rule? 0 = some .query := by
  obtain ⟨start, below, rfl⟩ := regular.root
  exact regular.lodged.holds.rule

theorem pos_of_rule (regular : t.Regular kind F limit) (rule : t.rule? n = some r)
    (other : r ≠ .query) : 0 < n := by
  apply Nat.pos_of_ne_zero
  rintro rfl
  exact other (Option.some.inj (rule.symm.trans regular.rule_zero))

theorem zero_of_query (regular : t.Regular kind F limit) (rule : t.rule? n = some .query) :
    n = 0 := by
  rcases Nat.eq_zero_or_pos n with rfl | positive
  · rfl
  · obtain ⟨a, r', s, below, held, child, _, within, _⟩ :=
      regular.child positive (lt_size_of_rule rule)
    have member := within .query (held.2.mem_labels child rule)
    cases r' <;> simp [Rule.parts] at member

/-- The rule of a node is one that its parent can have. -/
theorem mem_parts (regular : t.Regular kind F limit) (rule : t.rule? n = some r)
    (other : r ≠ .query) : ∃ a r', t.parent? n = some a ∧ t.rule? a = some r' ∧ r ∈ r'.parts := by
  obtain ⟨a, r', s, below, held, child, parent, within, _⟩ :=
    regular.child (regular.pos_of_rule rule other) (lt_size_of_rule rule)
  exact ⟨a, r', parent, held.rule, within r (held.2.mem_labels child rule)⟩

/-- A node that names its parent is among those right below it. -/
theorem mem_roots_of_parent (regular : t.Regular kind F limit) (parent : t.parent? n = some a) :
    ∃ r s below, t.Holds a r s below ∧ n ∈ below.roots (a + 1) := by
  have lt : n < t.size := by
    rcases Nat.lt_or_ge n t.size with lt | ge
    · exact lt
    · have absent : t.nodes[n]? = none := Array.getElem?_eq_none ge
      simp [parent?, absent] at parent
  have positive : 0 < n := by
    apply Nat.pos_of_ne_zero
    rintro rfl
    obtain ⟨start, below, rfl⟩ := regular.root
    rw [regular.lodged.parent_root List.mem_cons_self] at parent
    exact absurd parent (by simp)
  obtain ⟨a', r, s, below, held, child, parent', _⟩ := regular.child positive lt
  obtain rfl := Option.some.inj (parent.symm.trans parent')
  exact ⟨r, s, below, held, child⟩

theorem parent_lt (regular : t.Regular kind F limit) (parent : t.parent? n = some a) : a < n := by
  obtain ⟨r, s, below, held, child⟩ := regular.mem_roots_of_parent parent
  have bound := Forest.mem_roots child
  omega

/-- Every node but the first is below it. -/
theorem zero_above (regular : t.Regular kind F limit) (positive : 0 < n) (lt : n < t.size) :
    0 ∈ t.ancestors n := by
  obtain ⟨start, below, rfl⟩ := regular.root
  rw [regular.size, Forest.size, Forest.size] at lt
  rw [regular.mem_ancestors_iff regular.lodged.holds]
  omega

/-- The document's query is right below the root, next to which there are only tokens. -/
theorem first (regular : t.Regular kind F limit) :
    t.rule? 1 = some .innerQuery ∧ t.parent? 1 = some 0 ∧
      ∀ n, 0 < n → n < t.size →
        n = 1 ∨ 1 ∈ t.ancestors n ∨ t.parent? n = some 0 ∧ ∃ i, t.token? n = some i := by
  obtain ⟨start, body, rfl⟩ := regular.root
  obtain ⟨rest, labels, tokens⟩ := regular.shaped.1
  obtain ⟨s, below, next, rfl, same⟩ := Forest.labels_eq_rule labels
  have held := regular.lodged.2.1.holds
  refine ⟨held.rule, regular.lodged.2.1.parent_root List.mem_cons_self, ?_⟩
  intro n positive lt
  rw [regular.size] at lt
  simp only [Forest.size] at lt
  rcases Nat.eq_or_lt_of_le positive with rfl | later
  · exact .inl rfl
  by_cases inside : n < 1 + 1 + below.size
  · refine .inr (.inl ?_)
    rw [regular.mem_ancestors_iff held]
    omega
  · refine .inr (.inr ?_)
    rw [← same] at tokens
    exact regular.lodged.2.1.2.2.tokens_only tokens (by omega) (by omega)

theorem child_zero (regular : t.Regular kind F limit) : t.child? 0 0 = some 1 := by
  obtain ⟨start, body, rfl⟩ := regular.root
  obtain ⟨rest, labels, _⟩ := regular.shaped.1
  obtain ⟨s, below, next, rfl, _⟩ := Forest.labels_eq_rule labels
  rw [child?, regular.lodged.holds.children]
  rfl

/-- Below a rule that encloses a query there are the parentheses and the query. -/
theorem bracketed {s : Nat} {below : Forest} {r' : Rule} (regular : t.Regular kind F limit)
    (held : t.Holds a r s below) (rule : r = .selectExpr ∨ r = .inList)
    (encloses : Encloses r' (below.labels kind)) (member : q ∈ below.roots (a + 1))
    (query : t.rule? q = some r') : t.Bracketed kind a q := by
  obtain ⟨i, s', body, tail, rfl, opened, closing⟩ := Forest.of_encloses encloses
  have inner := held.2.2.holds
  have place : q = a + 2 := by
    rcases List.mem_cons.mp member with rfl | member
    · exact absurd query (by simp [held.2.rule_leaf])
    rcases List.mem_cons.mp member with rfl | member
    · rfl
    rcases closing with rfl | ⟨c, rfl, _⟩
    · exact absurd member List.not_mem_nil
    · rw [List.mem_singleton.mp member, held.2.2.2.2.rule_leaf] at query
      exact absurd query (by simp)
  refine ⟨place, held.2.parent_root member, ?_, ⟨i, held.2.token_leaf, opened⟩, ?_⟩
  · rw [held.rule]
    rcases rule with rfl | rfl
    · exact .inl rfl
    · exact .inr rfl
  intro n above
  rw [regular.mem_ancestors_iff held] at above
  rw [place, regular.mem_ancestors_iff inner]
  simp only [Forest.size] at above
  rcases closing with rfl | ⟨c, rfl, closed⟩
  · rw [Forest.size] at above
    omega
  · simp only [Forest.size] at above
    by_cases last : n = a + 2 + body.size + 1
    · refine .inr (.inr (.inr ?_))
      have leaf := held.2.2.2.2
      have same : n = a + 1 + 1 + 1 + body.size := by omega
      rw [same]
      exact ⟨leaf.parent_root List.mem_cons_self, c, leaf.token_leaf, closed⟩
    · omega

/-- A query is that of the document or stands between parentheses. -/
theorem query_cases (regular : t.Regular kind F limit) (query : t.isQuery q = true) :
    q = 1 ∨ ∃ a, t.Bracketed kind a q := by
  obtain ⟨r, rule, own⟩ : ∃ r, t.rule? q = some r ∧ r.isQueryScope = true := by
    rw [isQuery, Option.any_eq_true] at query
    exact query
  have positive : 0 < q := by
    apply regular.pos_of_rule rule
    rintro rfl
    simp [Rule.isQueryScope] at own
  obtain ⟨a, r', s, below, held, member, parent, within, shape⟩ :=
    regular.child positive (lt_size_of_rule rule)
  have listed : .rule r ∈ below.labels kind := held.2.mem_labels member rule
  have part := within r listed
  cases r' with
  | query =>
    obtain rfl := regular.zero_of_query held.rule
    rcases regular.first.2.2 q positive (lt_size_of_rule rule) with rfl | above | ⟨_, i, token⟩
    · exact .inl rfl
    · obtain ⟨p, found, _, above⟩ := mem_ancestors above
      obtain rfl := Option.some.inj (parent.symm.trans found)
      rcases List.mem_cons.mp above with same | above
      · omega
      · exact absurd (lt_of_mem_ancestors above) (by omega)
    · exact absurd rule (by simp [rule_of_token token])
  | selectExpr =>
    obtain rfl : r = .innerQuery := by
      cases r <;> simp [Rule.parts, Rule.isQueryScope] at part own ⊢
    rcases shape with encloses | absent
    · exact .inr ⟨a, regular.bracketed held (.inl rfl) encloses member rule⟩
    · exact absurd listed absent
  | inList =>
    obtain rfl : r = .semiJoin := by
      cases r <;> simp [Rule.parts, Rule.isQueryScope] at part own ⊢
    rcases shape with encloses | absent
    · exact .inr ⟨a, regular.bracketed held (.inr rfl) encloses member rule⟩
    · exact absurd listed absent
  | _ => cases r <;> simp [Rule.parts, Rule.isQueryScope] at part own

end Regular

end Tree

theorem parse_regular (tokens : TokenStream) :
    ∃ F, (parseTokens tokens).tree.Regular tokens.kindAt F tokens.size := by
  obtain ⟨start, below, s', grows, _, planted⟩ := parse_planted tokens
  have conforms := grows_query (fun _ _ _ _ => conforms_of_made) grows
  have spaced := grows_query (fun _ _ _ _ => spaced_of_made) grows
  exact ⟨_, planted, ⟨start, below, rfl⟩, conforms.nested, conforms.shaped, spaced⟩

end SoqlAssist
