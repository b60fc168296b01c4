import SoqlAssist.Proofs.Grammar.Shape

/-!
The source of a query as the grammar lays it out. A query has one clause with its objects at most,
and this clause one list of them; the first of the list is an object, an object begins with a path
and a path with a name. All this is true of broken queries too.
-/
namespace SoqlAssist

/-- The rule of the first thing right below a rule, where that is always the same. -/
def Rule.lead? : Rule → Option Rule
  | .fromExprs => some .fromExpr
  | .fromExpr => some .field
  | .field => some .identifier
  | _ => none

/-- The rule that stands at most once right below a rule. -/
def Rule.once? : Rule → Option Rule
  | .innerQuery | .semiJoin => some .fromClause
  | .fromClause => some .fromExprs
  | _ => none

/-- What stands right below a rule begins as it must and holds the single rule no more than once. -/
def Arranged (r : Rule) (labels : List Label) : Prop :=
  (∀ x ∈ r.lead?, ∀ first ∈ labels.head?, first = .rule x) ∧
    ∀ x ∈ r.once?, labels.count (.rule x) ≤ 1

def Orderly (kind : Nat → TokenKind) (F : Forest) : Prop :=
  F.Every fun r _ below => Arranged r (below.labels kind)

namespace Grammar

def Leading : Goal → List Label → Prop
  | .identifier, labels => labels = [.rule .identifier]
  | .fromExpr, labels => labels = [.rule .fromExpr]
  | .fromExprs, labels => labels = [.rule .fromExprs]
  | .fromPart, labels => labels = [] ∨ labels = [.rule .fromClause]
  | _, _ => True

/-- A row that a goal leaves, with the sources in it laid out as they must be. -/
structure Sourced (R : Reading) (g : Goal) (s : List Nat) (F : Forest) (s' : List Nat) : Prop where
  conforms : Conforms R g s F s'
  orderly : Orderly R.kind F
  leading : Leading g (F.labels R.kind)

variable {R : Reading} {s s' : List Nat} {g : Goal} {F : Forest}

section Leading

variable {P : Goal → List Nat → Forest → List Nat → Prop}

theorem identifier_leading (made : Made R P (R.moves .identifier s) s [F] s') :
    F.labels R.kind = [.rule .identifier] := by
  rcases made_cases made with ⟨its, planned, made⟩ | ⟨entered, its, p, rest, rfl, planned, made⟩ |
    ⟨_, _, _, entered, its, planned⟩
  · simp only [plan, failed] at planned
    split at planned
    all_goals simp only [Plan.expand.injEq, reduceCtorEq] at planned
    subst planned
    simp only [List.map_cons, List.map_nil, made_enter, made_report, made_leave, made_nil] at made
    grind [Forest.labels]
  · simp only [plan, failed] at planned
    split at planned
    all_goals simp only [Plan.shift.injEq, reduceCtorEq] at planned
    obtain ⟨rfl, rfl⟩ := planned
    simp only [List.map_cons, List.map_nil, List.cons_append, List.nil_append, made_enter,
      made_take, made_leave, made_nil] at made
    grind [Forest.labels]
  · simp [plan, failed, atName, softKeywords] at planned

theorem fromExpr_leading (made : Made R P (R.moves .fromExpr s) s [F] s') :
    F.labels R.kind = [.rule .fromExpr] := by
  rw [moves_expand rfl] at made
  simp only [List.map_cons, List.map_nil, made_enter, made_goal, made_leave, made_nil] at made
  grind [Forest.labels]

theorem fromExprs_leading (made : Made R P (R.moves .fromExprs s) s [F] s') :
    F.labels R.kind = [.rule .fromExprs] := by
  rcases made_cases made with ⟨its, planned, made⟩ | ⟨entered, its, p, rest, rfl, planned, made⟩ |
    ⟨_, _, _, entered, its, planned⟩
  · simp only [plan, failed] at planned
    split at planned
    all_goals
      simp only [Plan.expand.injEq] at planned
      subst planned
      simp only [List.map_cons, List.map_nil, made_enter, made_goal, made_report, made_leave,
        made_nil] at made
      grind [Forest.labels]
  · simp only [plan, failed] at planned
    split at planned <;> simp at planned
  · simp only [plan, failed] at planned
    split at planned <;> simp at planned

theorem fromPart_leading (made : Made R P (R.moves .fromPart s) s [F] s') :
    F.labels R.kind = [] ∨ F.labels R.kind = [.rule .fromClause] := by
  rcases made_cases made with ⟨its, planned, made⟩ | ⟨entered, its, p, rest, rfl, planned, made⟩ |
    ⟨_, rfl, _⟩
  · simp only [plan] at planned
    split at planned
    all_goals simp only [Plan.expand.injEq, reduceCtorEq] at planned
    subst planned
    simp only [List.map_cons, List.map_nil, made_report, made_nil] at made
    exact .inl (by rw [made.1, Forest.labels])
  · simp only [plan] at planned
    split at planned
    all_goals simp only [Plan.shift.injEq, reduceCtorEq] at planned
    obtain ⟨rfl, rfl⟩ := planned
    simp only [List.map_cons, List.map_nil, List.cons_append, List.nil_append, made_enter,
      made_take, made_goal, made_leave, made_nil] at made
    refine .inr ?_
    grind [Forest.labels]
  · exact .inl rfl

theorem leading_of_made (made : Made R P (R.moves g s) s [F] s') :
    Leading g (F.labels R.kind) := by
  cases g with
  | identifier => exact identifier_leading made
  | fromExpr => exact fromExpr_leading made
  | fromExprs => exact fromExprs_leading made
  | fromPart => exact fromPart_leading made
  | _ => trivial

end Leading

section Arranged

def sourceRules : List Rule := [.innerQuery, .semiJoin, .fromClause, .fromExprs, .fromExpr, .field]

theorem arranged_of_not_mem {r : Rule} {labels : List Label} (other : r ∉ sourceRules) :
    Arranged r labels := by
  cases r <;> simp [sourceRules, Arranged, Rule.lead?, Rule.once?] at other ⊢

def sourceGoals : List Goal := [.innerQuery, .inBody, .fromPart, .fromExprs, .fromExpr, .field]

theorem other_moves (other : g ∉ sourceGoals) :
    ∀ r, .item (.enter r) ∈ R.moves g s → r ∉ sourceRules := by
  refine moves_cases (Q := fun moves => ∀ r, .item (.enter r) ∈ moves → r ∉ sourceRules)
    (by simp) fun k₁ k₂ => ?_
  cases g <;>
    simp only [plan, clausePlan, comparisonPlan, valuePlan, withPlan, failed] <;>
    (repeat' split) <;>
    simp_all [Plan.moves, sourceGoals, sourceRules, token, callTail]

/-- A rule that begins with what one goal adds. -/
theorem arranged_lead {r x : Rule} {A B : Forest} (lead : r.lead? = some x)
    (plain : r.once? = none) (labels : A.labels R.kind = [.rule x]) :
    Arranged r ((A ++ B).labels R.kind) := by
  rw [Arranged, lead, plain, Forest.labels_append, labels]
  simp

theorem arranged_empty {r : Rule} : Arranged r [] := by
  simp [Arranged]

/-- A rule with one place for the single rule. -/
theorem arranged_once {r x : Rule} {A B C : List Label} (plain : r.lead? = none)
    (once : r.once? = some x) (before : .rule x ∉ A) (middle : B = [] ∨ B = [.rule x])
    (after : .rule x ∉ C) : Arranged r (A ++ (B ++ C)) := by
  have none_before := List.count_eq_zero.mpr before
  have none_after := List.count_eq_zero.mpr after
  rw [Arranged, plain, once]
  refine ⟨by simp, ?_⟩
  intro y same
  obtain rfl := Option.some.inj same
  rw [List.count_append, List.count_append, none_before, none_after]
  rcases middle with rfl | rfl <;> simp

variable (made : Made R (Sourced R) (R.moves g s) s [F] s')
include made

theorem field_orderly (goal : g = .field) :
    Orderly R.kind F := by
  subst goal
  rw [moves_expand rfl] at made
  simp only [List.map_cons, List.map_nil, made_enter, made_goal, made_leave, made_nil] at made
  obtain ⟨_, _, rfl, A, _, _, rfl, name, B, _, _, rfl, more, rfl, rfl, _⟩ := made
  refine ⟨arranged_lead rfl rfl name.leading, ?_, trivial⟩
  exact Forest.every_append.mpr ⟨name.orderly, Forest.every_append.mpr ⟨more.orderly, trivial⟩⟩

theorem fromExpr_orderly (goal : g = .fromExpr) :
    Orderly R.kind F := by
  subst goal
  rw [moves_expand rfl] at made
  simp only [List.map_cons, List.map_nil, made_enter, made_goal, made_leave, made_nil] at made
  obtain ⟨_, _, rfl, A, _, _, rfl, path, B, _, _, rfl, named, rfl, rfl, _⟩ := made
  refine ⟨arranged_lead rfl rfl path.conforms.form, ?_, trivial⟩
  exact Forest.every_append.mpr ⟨path.orderly, Forest.every_append.mpr ⟨named.orderly, trivial⟩⟩

theorem fromExprs_orderly (goal : g = .fromExprs) :
    Orderly R.kind F := by
  subst goal
  rcases made_cases made with ⟨its, planned, made⟩ | ⟨entered, its, p, rest, rfl, planned, made⟩ |
    ⟨_, rfl, _⟩
  · simp only [plan, failed] at planned
    split at planned
    all_goals
      simp only [Plan.expand.injEq] at planned
      subst planned
      simp only [List.map_cons, List.map_nil, made_enter, made_goal, made_report, made_leave,
        made_nil] at made
    · obtain ⟨_, _, rfl, A, _, _, rfl, object, B, _, _, rfl, more, rfl, rfl, _⟩ := made
      refine ⟨arranged_lead rfl rfl object.leading, ?_, trivial⟩
      exact Forest.every_append.mpr
        ⟨object.orderly, Forest.every_append.mpr ⟨more.orderly, trivial⟩⟩
    · obtain ⟨_, _, rfl, rfl, rfl, _⟩ := made
      exact ⟨arranged_empty, trivial, trivial⟩
  · simp only [plan, failed] at planned
    split at planned <;> simp at planned
  · trivial

theorem fromPart_orderly (goal : g = .fromPart) :
    Orderly R.kind F := by
  subst goal
  rcases made_cases made with ⟨its, planned, made⟩ | ⟨entered, its, p, rest, rfl, planned, made⟩ |
    ⟨_, rfl, _⟩
  · simp only [plan] at planned
    split at planned
    all_goals simp only [Plan.expand.injEq, reduceCtorEq] at planned
    subst planned
    simp only [List.map_cons, List.map_nil, made_report, made_nil] at made
    rw [made.1]
    trivial
  · simp only [plan] at planned
    split at planned
    all_goals simp only [Plan.shift.injEq, reduceCtorEq] at planned
    obtain ⟨rfl, rfl⟩ := planned
    simp only [List.map_cons, List.map_nil, List.cons_append, List.nil_append, made_enter,
      made_take, made_goal, made_leave, made_nil] at made
    obtain ⟨_, _, rfl, _, rfl, A, _, _, rfl, objects, rfl, rfl, _⟩ := made
    refine ⟨?_, Forest.every_append.mpr ⟨objects.orderly, trivial⟩, trivial⟩
    have single := arranged_once (r := .fromClause) (A := [.token (R.kind p)]) (C := []) rfl rfl
      (by simp) (.inr objects.leading) (by simp)
    rw [List.append_nil] at single
    show Arranged .fromClause (.token (R.kind p) :: (A ++ .nil).labels R.kind)
    rw [Forest.append_nil]
    exact single
  · trivial

theorem innerQuery_orderly (goal : g = .innerQuery) :
    Orderly R.kind F := by
  subst goal
  rw [moves_expand rfl] at made
  simp only [token, List.map_cons, List.map_nil, made_enter, made_goal, made_leave,
    made_nil] at made
  obtain ⟨_, _, rfl, word, _, _, rfl, select, list, _, _, rfl, columns, objects, _, _, rfl, source,
    tail, _, _, rfl, clauses, rfl, rfl, -⟩ := made
  refine ⟨?_, ?_, trivial⟩
  · have before : .rule .fromClause ∉ word.labels R.kind ++ list.labels R.kind := by
      rw [List.mem_append]
      rintro (first | second)
      · exact select.conforms.not_mem (by decide) first
      · exact columns.conforms.not_mem (by decide) second
    show Arranged .innerQuery ((word ++ (list ++ (objects ++ (tail ++ .nil)))).labels R.kind)
    rw [Forest.append_nil, Forest.labels_append, Forest.labels_append, Forest.labels_append,
      ← List.append_assoc]
    exact arranged_once rfl rfl before source.leading (clauses.conforms.not_mem (by decide))
  · simp only [Forest.every_append]
    exact ⟨select.orderly, columns.orderly, source.orderly, clauses.orderly, trivial⟩

theorem inBody_orderly (goal : g = .inBody) :
    Orderly R.kind F := by
  subst goal
  rcases made_cases made with ⟨its, planned, made⟩ | ⟨entered, its, p, rest, rfl, planned, made⟩ |
    ⟨_, rfl, _⟩
  · simp only [plan] at planned
    split at planned
    all_goals simp only [Plan.expand.injEq, reduceCtorEq] at planned
    subst planned
    simp only [List.map_cons, List.map_nil, made_goal, made_nil] at made
    obtain ⟨first, _, _, rfl, value, more, _, _, rfl, values, rfl, _⟩ := made
    exact Forest.every_append.mpr
      ⟨value.orderly, Forest.every_append.mpr ⟨values.orderly, trivial⟩⟩
  · simp only [plan] at planned
    split at planned
    all_goals simp only [Plan.shift.injEq, reduceCtorEq] at planned
    obtain ⟨rfl, rfl⟩ := planned
    simp only [List.map_cons, List.map_nil, List.cons_append, List.nil_append, made_enter,
      made_take, made_goal, made_leave, made_nil] at made
    obtain ⟨_, _, rfl, _, rfl, A, _, _, rfl, column, B, _, _, rfl, source, C, _, _, rfl, filter,
      rfl, rfl, _⟩ := made
    refine ⟨?_, ?_, trivial⟩
    · have before : .rule .fromClause ∉ .token (R.kind p) :: A.labels R.kind := by
        simpa using column.conforms.not_mem (r := .fromClause) (by decide)
      show Arranged .semiJoin (.token (R.kind p) :: (A ++ (B ++ (C ++ .nil))).labels R.kind)
      rw [Forest.append_nil, Forest.labels_append, Forest.labels_append, ← List.cons_append]
      exact arranged_once rfl rfl before source.leading (filter.conforms.not_mem (by decide))
    · simp only [Forest.Every, Forest.every_append]
      exact ⟨column.orderly, source.orderly, filter.orderly, trivial⟩
  · trivial

end Arranged

theorem sourced_of_made (made : Made R (Sourced R) (R.moves g s) s [F] s') :
    Sourced R g s F s' := by
  refine ⟨conforms_of_made (made.mono fun _ _ _ _ sourced => sourced.conforms), ?_,
    leading_of_made made⟩
  by_cases source : g ∈ sourceGoals
  · simp only [sourceGoals, List.mem_cons, List.not_mem_nil, or_false] at source
    rcases source with query | operand | clause | list | object | path
    · exact innerQuery_orderly made query
    · exact inBody_orderly made operand
    · exact fromPart_orderly made clause
    · exact fromExprs_orderly made list
    · exact fromExpr_orderly made object
    · exact field_orderly made path
  · exact every_of_made (fun _ _ _ _ sourced => sourced.orderly)
      (fun r member _ _ => arranged_of_not_mem (other_moves source r member)) made F
      List.mem_cons_self

end Grammar

end SoqlAssist
