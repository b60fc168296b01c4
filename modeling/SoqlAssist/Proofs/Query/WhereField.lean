import SoqlAssist.Proofs.Query.Condition

/-!
The condition that the field at a position is read from. Its object is that of the innermost query
at the position, but the condition is the nearest one of all queries. The two belong together
exactly if the query of the condition covers the position and no query as an operand of the
condition does: behind such an operand, and in it before its own filter, the field is paired with
the object of another query.
-/
namespace SoqlAssist

open SoqlAssist.Tree

namespace Analysis

def Covers (a : Analysis) (i q : Nat) : Prop :=
  ∃ s, a.scopeOf? q = some s ∧ s.contains i = true

/-- The reference has the field and the operator of the condition at a node. -/
def ReadFrom (a : Analysis) (c : Nat) (r : FieldReference) : Prop :=
  ∃ f, a.parsed.tree.child? c 0 = some f ∧
    r.fieldName = withoutQualifier r.objectName (a.parsed.tree.text f a.parsed.tokens) ∧
    r.operator = if (a.parsed.tree.children c).length > 2 then
      (a.parsed.tree.child? c 1).map (operatorText a.parsed.tree a.parsed.tokens) else none

theorem whereField_eq_some {a : Analysis} {i : Nat} {r : FieldReference}
    (found : a.whereField? i = some r) :
    ∃ c s, nearestCondition? a.parsed.tree i = some c ∧ a.ReadFrom c r ∧
      a.scopes.innermostAt? i = some s ∧ s.objectName = some r.objectName := by
  simp only [whereField?, Option.bind_eq_bind, Option.bind_eq_some_iff] at found
  obtain ⟨s, innermost, object, named, c, nearest, f, child, made⟩ := found
  obtain rfl := Option.some.inj made
  exact ⟨c, s, nearest, ⟨f, child, rfl, rfl⟩, innermost, named⟩

theorem Lists.innermost {a : Analysis} {i : Nat} {qs : List Nat} {s : QueryScope}
    (lists : a.Lists i qs) (innermost : a.scopes.innermostAt? i = some s) :
    qs.head?.map a.scopeOf? = some (some s) := by
  have first : (a.scopesAt i).head? = some s := innermost
  rw [← List.head?_map, ← lists, List.head?_map, first]
  rfl

end Analysis

section Parse

variable {tokens : TokenStream} {F : Forest} {i q : Nat} {s : QueryScope}
  (regular : (parseTokens tokens).tree.Regular tokens.kindAt F tokens.size)
include regular

theorem covers_scopeOf (query : (parseTokens tokens).tree.isQuery q = true) :
    (Analysis.ofParsed (parseTokens tokens)).Covers i q ↔
      (parseTokens tokens).tree.covers i q = true := by
  obtain ⟨s, found, backed⟩ := exists_scopeOf regular query
  rw [← QueryScopes.contains_eq backed]
  constructor
  · rintro ⟨s', found', covered⟩
    obtain rfl := Option.some.inj (found.symm.trans found')
    exact covered
  · intro covered
    exact ⟨s, found, covered⟩

/-- The innermost scope is that of a query which covers the position as do those above it, and no
others. -/
theorem innermost_query
    (innermost : (Analysis.ofParsed (parseTokens tokens)).scopes.innermostAt? i = some s) :
    ∃ p, (parseTokens tokens).tree.isQuery p = true ∧
      (Analysis.ofParsed (parseTokens tokens)).scopeOf? p = some s ∧
        ∀ q, q ∈ p :: (parseTokens tokens).tree.queriesAbove p ↔
          (parseTokens tokens).tree.isQuery q = true ∧
            (parseTokens tokens).tree.covers i q = true := by
  rcases regular.covering_cases i with empty | ⟨p, query, covering⟩
  · have first := (lists_covering regular empty).innermost innermost
    exact absurd first (by simp)
  · have first := (lists_covering regular covering).innermost innermost
    refine ⟨p, query, Option.some.inj first, fun q => ?_⟩
    rw [← covering, List.mem_reverse, List.mem_filter, mem_queries]

end Parse

/-- The field at a position is read from a condition of the innermost query exactly if the query of
the nearest condition covers the position and no query below the condition does. -/
theorem whereField_owner_iff (tokens : TokenStream) (i : Nat) (r : FieldReference)
    (found : (Analysis.ofParsed (parseTokens tokens)).whereField? i = some r) :
    let t := (parseTokens tokens).tree
    let a := Analysis.ofParsed (parseTokens tokens)
    ∃ c q s, Analysis.nearestCondition? t i = some c ∧ t.rule? c = some .whereExpr ∧
      a.ReadFrom c r ∧ t.enclosing? c Rule.isQueryScope = some q ∧
      a.scopes.innermostAt? i = some s ∧ s.objectName = some r.objectName ∧
      (a.scopeOf? q = some s ↔
        a.Covers i q ∧ ∀ p, t.isQuery p = true → c ∈ t.ancestors p → ¬ a.Covers i p) := by
  intro t a
  obtain ⟨F, regular⟩ := parse_regular tokens
  obtain ⟨c, s, nearest, read, innermost, object⟩ := Analysis.whereField_eq_some found
  obtain ⟨rule, s₁, start, le, latest⟩ :=
    Analysis.nearestCondition_spec regular.mem_ruleNodes nearest
  obtain ⟨q, _, _, owner, _⟩ := regular.filter_owner rule (by simp [Regular.filterRules])
  have enclosing : t.enclosing? c Rule.isQueryScope = some q :=
    (enclosing_eq_owner (isQuery_of_rule rule)).trans owner
  obtain ⟨higher, query⟩ := mem_of_owner owner
  obtain ⟨p, inner, scope, covering⟩ := innermost_query regular innermost
  refine ⟨c, q, s, nearest, rule, read, enclosing, innermost, object, ?_⟩
  rw [covers_scopeOf regular query]
  constructor
  · intro own
    obtain rfl : q = p := scopeOf_injective regular query inner (own.trans scope.symm)
    refine ⟨((covering q).mp List.mem_cons_self).2, fun m query' below covered => ?_⟩
    have listed := (covering m).mpr ⟨query', (covers_scopeOf regular query').mp covered⟩
    have lt := Nat.lt_trans (lt_of_mem_ancestors higher) (lt_of_mem_ancestors below)
    rcases List.mem_cons.mp listed with rfl | above
    · exact Nat.lt_irrefl _ lt
    · exact Nat.lt_asymm lt (lt_of_mem_ancestors (mem_queriesAbove.mp above).1)
  · rintro ⟨covered, free⟩
    rcases List.mem_cons.mp ((covering q).mpr ⟨query, covered⟩) with rfl | above
    · exact scope
    · obtain ⟨m, query', below, covered'⟩ := regular.covers_below_nearest rule owner start le latest
        inner ((covering p).mp List.mem_cons_self).2 above
      exact absurd ((covers_scopeOf regular query').mpr covered') (free m query' below)

/-- The visible tokens of
`SELECT Id FROM Account WHERE Id IN (SELECT AccountId FROM Contact WHERE Name = 'x') LIMIT 1`. -/
def operandTokens : TokenStream :=
  #[⟨.SELECT, "SELECT", 0, 1, 0, .visible⟩, ⟨.identifier, "Id", 1, 1, 7, .visible⟩,
    ⟨.FROM, "FROM", 2, 1, 10, .visible⟩, ⟨.identifier, "Account", 3, 1, 15, .visible⟩,
    ⟨.WHERE, "WHERE", 4, 1, 23, .visible⟩, ⟨.identifier, "Id", 5, 1, 29, .visible⟩,
    ⟨.IN, "IN", 6, 1, 32, .visible⟩, ⟨.lParen, "(", 7, 1, 35, .visible⟩,
    ⟨.SELECT, "SELECT", 8, 1, 36, .visible⟩, ⟨.identifier, "AccountId", 9, 1, 43, .visible⟩,
    ⟨.FROM, "FROM", 10, 1, 53, .visible⟩, ⟨.identifier, "Contact", 11, 1, 58, .visible⟩,
    ⟨.WHERE, "WHERE", 12, 1, 66, .visible⟩, ⟨.identifier, "Name", 13, 1, 72, .visible⟩,
    ⟨.eq, "=", 14, 1, 77, .visible⟩, ⟨.string, "'x'", 15, 1, 79, .visible⟩,
    ⟨.rParen, ")", 16, 1, 82, .visible⟩, ⟨.LIMIT, "LIMIT", 17, 1, 84, .visible⟩,
    ⟨.integer, "1", 18, 1, 90, .visible⟩, ⟨.eof, "", 19, 1, 91, .visible⟩]

theorem whereField_in_operand :
    let t := (parseTokens operandTokens).tree
    let a := Analysis.ofParsed (parseTokens operandTokens)
    a.whereField? 14 = some ⟨"Contact", "Name", some "="⟩ ∧
      ∃ c q s, Analysis.nearestCondition? t 14 = some c ∧
        t.enclosing? c Rule.isQueryScope = some q ∧ a.scopes.innermostAt? 14 = some s ∧
        (a.scopeOf? q = some s ↔
          a.Covers 14 q ∧ ∀ p, t.isQuery p = true → c ∈ t.ancestors p → ¬ a.Covers 14 p) := by
  have found : (Analysis.ofParsed (parseTokens operandTokens)).whereField? 14 =
      some ⟨"Contact", "Name", some "="⟩ := by cbv
  obtain ⟨c, q, s, nearest, _, _, enclosing, innermost, _, condition⟩ :=
    whereField_owner_iff operandTokens 14 _ found
  exact ⟨found, c, q, s, nearest, enclosing, innermost, condition⟩

/-- Behind the operand the field of its condition is paired with the object of the query around. -/
theorem whereField_behind_operand :
    let t := (parseTokens operandTokens).tree
    let a := Analysis.ofParsed (parseTokens operandTokens)
    a.whereField? 17 = some ⟨"Account", "Name", some "="⟩ ∧
      ∃ c q s, Analysis.nearestCondition? t 17 = some c ∧
        t.enclosing? c Rule.isQueryScope = some q ∧ a.scopes.innermostAt? 17 = some s ∧
        a.scopeOf? q ≠ some s := by
  have values : (let a := Analysis.ofParsed (parseTokens operandTokens)
      (a.whereField? 17, Analysis.nearestCondition? a.parsed.tree 17,
        a.parsed.tree.enclosing? 41 Rule.isQueryScope,
        (a.scopeOf? 26).map (·.selectToken),
        (a.scopes.innermostAt? 17).map (·.selectToken))) =
      (some ⟨"Account", "Name", some "="⟩, some 41, some 26, some 8, some 0) := by cbv
  simp only [Prod.mk.injEq] at values
  obtain ⟨found, nearest, owner, inner, outer⟩ := values
  obtain ⟨s, innermost, first⟩ := Option.map_eq_some_iff.mp outer
  refine ⟨found, 41, 26, s, nearest, owner, innermost, fun same => ?_⟩
  rw [same, Option.map_some, first] at inner
  exact absurd inner (by simp)

end SoqlAssist
