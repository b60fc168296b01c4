import SoqlAssist.Proofs.Grammar.Content

/-!
The shapes of the rules that hold queries and conditions. A document is a query and tokens. The
select list of a query comes before its clauses. A query in parentheses stands alone between them,
the closing one if it is there. A condition is empty, an operand, or an operand, an operator and a
value.
-/
namespace SoqlAssist

/-- A query between parentheses, of which the closing one can be missing. -/
def Encloses (q : Rule) (labels : List Label) : Prop :=
  labels = [.token .lParen, .rule q] ∨ labels = [.token .lParen, .rule q, .token .rParen]

/-- What can stand right below a rule, from left to right. -/
def Shape : Rule → List Label → Prop
  | .query, labels => ∃ rest, labels = .rule .innerQuery :: rest ∧ ∀ r, .rule r ∉ rest
  | .innerQuery, labels => ∃ first rest, labels = first ++ .rule .selectExprs :: rest ∧
    (∀ r, .rule r ∉ first) ∧ .rule .selectExprs ∉ rest
  | .selectExpr, labels => Encloses .innerQuery labels ∨ .rule .innerQuery ∉ labels
  | .inList, labels => Encloses .semiJoin labels ∨ .rule .semiJoin ∉ labels
  | .whereExpr, labels =>
    labels = [] ∨ ∃ x ∈ [Rule.field, .functionCall, .distanceExpr], labels = [.rule x] ∨
      ∃ v ∈ [Rule.literalValue, .likeLiteral, .inList],
        labels = [.rule x, .rule .comparisonOperator, .rule v]
  | _, _ => True

def Shaped (kind : Nat → TokenKind) (F : Forest) : Prop :=
  F.Every fun r _ below => Shape r (below.labels kind)

namespace Grammar

def Form (R : Reading) (s : List Nat) : Goal → List Label → Prop
  | .innerQuery, labels => labels = [.rule .innerQuery]
  | .selectExprs, labels => labels = [.rule .selectExprs]
  | .field, labels => labels = [.rule .field]
  | .inList, labels => labels = [.rule .inList]
  | .literalValue, labels => labels = [.rule .literalValue]
  | .likeLiteral, labels => labels = [.rule .likeLiteral]
  | .functionCall, labels =>
    atCall (peek (s.map R.kind)) (peek ((s.map R.kind).drop 1)) = true →
      labels = [.rule .functionCall]
  | .subquery, labels => labels = [] ∨ labels = [.rule .innerQuery]
  | .inBody, labels => labels = [.rule .semiJoin] ∨ .rule .semiJoin ∉ labels
  | .comparison, labels =>
    labels = [] ∨ ∃ v ∈ [Rule.literalValue, .likeLiteral, .inList],
      labels = [.rule .comparisonOperator, .rule v]
  | .one k _, labels => labels = [] ∨ labels = [.token k]
  | _, _ => True

/-- A row that a goal leaves: below each rule stands what can, and the row is what the goal adds. -/
structure Conforms (R : Reading) (g : Goal) (s : List Nat) (F : Forest) (s' : List Nat) : Prop where
  nested : Nested R.kind F
  within : Within R.kind F g.adds
  shaped : Shaped R.kind F
  form : Form R s g (F.labels R.kind)

variable {R : Reading} {moves : List Move} {s s' : List Nat} {rows : List Forest} {g : Goal}
  {F : Forest}

def shapedRules : List Rule := [.query, .innerQuery, .selectExpr, .inList, .whereExpr]

theorem shape_of_not_mem {r : Rule} {labels : List Label} (plain : r ∉ shapedRules) :
    Shape r labels := by
  cases r <;> simp [shapedRules] at plain <;> trivial

/-- What is true of the rules that moves enter and of what their goals leave is true throughout. -/
theorem every_of_made {P : Goal → List Nat → Forest → List Nat → Prop}
    {Q : Rule → Nat → Forest → Prop} (goals : ∀ g s F s', P g s F s' → F.Every Q)
    (entered : ∀ r, .item (.enter r) ∈ moves → ∀ p below, Q r p below)
    (made : Made R P moves s rows s') : ∀ F ∈ rows, F.Every Q := by
  induction moves generalizing s rows with
  | nil =>
    obtain ⟨rfl, -⟩ := made
    intro F member
    rw [List.mem_singleton.mp member]
    trivial
  | cons m moves ih =>
    have rest : ∀ r, .item (.enter r) ∈ moves → ∀ p below, Q r p below :=
      fun r member => entered r (List.mem_cons_of_mem _ member)
    match m, entered with
    | .item (.enter r), entered =>
      obtain ⟨below, next, others, rfl, made⟩ := made
      have inside := ih rest made
      intro F member
      rcases List.mem_cons.mp member with rfl | member
      · exact ⟨entered r List.mem_cons_self _ _, inside below (by simp), inside next (by simp)⟩
      · exact inside F (by simp [member])
    | .item .leave, _ =>
      obtain ⟨others, rfl, made⟩ := made
      intro F member
      rcases List.mem_cons.mp member with rfl | member
      · trivial
      · exact ih rest made F member
    | .item (.report p), _ => exact ih rest made
    | .item .endMark, _ =>
      obtain ⟨G, others, rfl, made⟩ := made
      have inside := ih rest made
      intro F member
      rcases List.mem_cons.mp member with rfl | member
      · have first := inside G (by simp)
        cases R.mark with
        | none => exact first
        | some m => exact first
      · exact inside F (by simp [member])
    | .take, _ =>
      obtain ⟨p, left, G, others, rfl, rfl, made⟩ := made
      have inside := ih rest made
      intro F member
      rcases List.mem_cons.mp member with rfl | member
      · exact inside G (by simp)
      · exact inside F (by simp [member])
    | .item (.goal g), _ =>
      obtain ⟨G, s₁, H, others, rfl, goal, made⟩ := made
      have inside := ih rest made
      intro F member
      rcases List.mem_cons.mp member with rfl | member
      · exact Forest.every_append.mpr ⟨goals g s G s₁ goal, inside H (by simp)⟩
      · exact inside F (by simp [member])

theorem shaped_of_made {P : Goal → List Nat → Forest → List Nat → Prop}
    (shaped : ∀ g s F s', P g s F s' → Shaped R.kind F)
    (plain : ∀ r, .item (.enter r) ∈ moves → r ∉ shapedRules) (made : Made R P moves s rows s') :
    ∀ F ∈ rows, Shaped R.kind F :=
  every_of_made shaped (fun r member _ _ => shape_of_not_mem (plain r member)) made

def shapingGoals : List Goal := [.query, .innerQuery, .selectExpr, .inList, .whereExpr]

theorem plain_moves (other : g ∉ shapingGoals) :
    ∀ r, .item (.enter r) ∈ R.moves g s → r ∉ shapedRules := by
  refine moves_cases (Q := fun moves => ∀ r, .item (.enter r) ∈ moves → r ∉ shapedRules)
    (by simp) fun k₁ k₂ => ?_
  cases g <;>
    simp only [plan, clausePlan, comparisonPlan, valuePlan, withPlan, failed] <;>
    (repeat' split) <;>
    simp_all [Plan.moves, shapingGoals, shapedRules, token, callTail]

section Forms

variable {P : Goal → List Nat → Forest → List Nat → Prop}

theorem field_form (made : Made R P (R.moves .field s) s [F] s') :
    F.labels R.kind = [.rule .field] := by
  rw [moves_expand rfl] at made
  simp only [List.map_cons, List.map_nil, made_enter, made_goal, made_leave, made_nil] at made
  grind [Forest.labels]

theorem innerQuery_form (made : Made R P (R.moves .innerQuery s) s [F] s') :
    F.labels R.kind = [.rule .innerQuery] := by
  rw [moves_expand rfl] at made
  simp only [List.map_cons, List.map_nil, token, made_enter, made_goal, made_leave,
    made_nil] at made
  grind [Forest.labels]

theorem selectExprs_form (made : Made R P (R.moves .selectExprs s) s [F] s') :
    F.labels R.kind = [.rule .selectExprs] := by
  rcases made_cases made with ⟨its, planned, made⟩ | ⟨entered, its, p, rest, rfl, planned, made⟩ |
    ⟨_, _, _, entered, its, planned⟩
  · simp only [plan, failed] at planned
    split at planned
    all_goals
      simp only [Plan.expand.injEq] at planned
      subst planned
      simp only [List.map_cons, List.map_nil, made_enter, made_goal, made_report, made_leave,
        made_nil] at made
      grind [Forest.labels]
  · simp only [plan, failed] at planned
    split at planned <;> simp at planned
  · simp only [plan, failed] at planned
    split at planned <;> simp at planned

theorem literalValue_form (made : Made R P (R.moves .literalValue s) s [F] s') :
    F.labels R.kind = [.rule .literalValue] := by
  rcases made_cases made with ⟨its, planned, made⟩ | ⟨entered, its, p, rest, rfl, planned, made⟩ |
    ⟨_, _, _, entered, its, planned⟩
  · simp only [plan, valuePlan, failed] at planned
    split at planned
    all_goals simp only [Plan.expand.injEq, reduceCtorEq] at planned
    subst planned
    simp only [List.map_cons, List.map_nil, made_enter, made_report, made_leave, made_nil] at made
    grind [Forest.labels]
  · simp only [plan, valuePlan, failed] at planned
    split at planned
    all_goals simp only [Plan.shift.injEq, reduceCtorEq] at planned
    all_goals obtain ⟨rfl, rfl⟩ := planned
    all_goals
      simp only [List.map_cons, List.map_nil, List.cons_append, List.nil_append, made_enter,
        made_take, made_goal, made_leave, made_nil] at made
      grind [Forest.labels]
  · simp [plan, valuePlan, failed] at planned

theorem likeLiteral_form (made : Made R P (R.moves .likeLiteral s) s [F] s') :
    F.labels R.kind = [.rule .likeLiteral] := by
  rcases made_cases made with ⟨its, planned, made⟩ | ⟨entered, its, p, rest, rfl, planned, made⟩ |
    ⟨_, _, _, entered, its, planned⟩
  · simp only [plan, failed] at planned
    split at planned
    all_goals simp only [Plan.expand.injEq, reduceCtorEq] at planned
    subst planned
    simp only [List.map_cons, List.map_nil, made_enter, made_report, made_leave, made_nil] at made
    grind [Forest.labels]
  · simp only [plan, failed] at planned
    split at planned
    all_goals simp only [Plan.shift.injEq, reduceCtorEq] at planned
    obtain ⟨rfl, rfl⟩ := planned
    simp only [List.map_cons, List.map_nil, List.cons_append, List.nil_append, made_enter,
      made_take, made_leave, made_nil] at made
    grind [Forest.labels]
  · simp [plan, failed] at planned

theorem functionCall_form (made : Made R P (R.moves .functionCall s) s [F] s')
    (called : atCall (peek (s.map R.kind)) (peek ((s.map R.kind).drop 1)) = true) :
    F.labels R.kind = [.rule .functionCall] := by
  rcases made_cases made with ⟨its, planned, made⟩ | ⟨entered, its, p, rest, rfl, planned, made⟩ |
    ⟨rfl, _⟩
  · simp only [plan, called, if_true, reduceCtorEq] at planned
  · simp only [plan] at planned
    split at planned
    all_goals simp only [Plan.shift.injEq, reduceCtorEq] at planned
    obtain ⟨rfl, rfl⟩ := planned
    simp only [callTail, token, List.map_cons, List.map_nil, List.cons_append, List.nil_append,
      made_enter, made_take, made_goal, made_leave, made_nil] at made
    grind [Forest.labels]
  · exact absurd called (by simp [atCall, atName, softKeywords])

theorem one_form {k : TokenKind} {problem : Problem}
    (made : Made R P (R.moves (.one k problem) s) s [F] s') :
    F.labels R.kind = [] ∨ F.labels R.kind = [.token k] := by
  rcases made_cases made with ⟨its, planned, made⟩ | ⟨entered, its, p, rest, rfl, planned, made⟩ |
    ⟨_, rfl, _⟩
  · simp only [plan] at planned
    split at planned
    all_goals simp only [Plan.expand.injEq, reduceCtorEq] at planned
    subst planned
    simp only [List.map_cons, List.map_nil, made_report, made_nil] at made
    exact .inl (by rw [made.1, Forest.labels])
  · simp only [plan] at planned
    split at planned
    all_goals simp only [Plan.shift.injEq, reduceCtorEq] at planned
    rename_i same
    obtain ⟨rfl, rfl⟩ := planned
    simp only [List.map_nil, List.nil_append, made_take, made_nil] at made
    obtain ⟨_, rfl, rfl, _⟩ := made
    exact .inr (by rw [Forest.labels, Forest.labels, beq_iff_eq.mp same])
  · exact .inl rfl

/-- The goals that read the value of a condition. -/
theorem value_form (conforms : Conforms R g s F s')
    (value : g ∈ [Goal.literalValue, .likeLiteral, .inList]) :
    ∃ v ∈ [Rule.literalValue, .likeLiteral, .inList], F.labels R.kind = [.rule v] := by
  have form := conforms.form
  simp only [List.mem_cons, List.not_mem_nil, or_false] at value
  rcases value with rfl | rfl | rfl
  · exact ⟨.literalValue, by simp, form⟩
  · exact ⟨.likeLiteral, by simp, form⟩
  · exact ⟨.inList, by simp, form⟩

/-- The operator and the value of a condition stand or are missing together. -/
theorem comparison_form (made : Made R (Conforms R) (R.moves .comparison s) s [F] s') :
    Form R s .comparison (F.labels R.kind) := by
  have compared {s₁ s₂ : List Nat} {g : Goal} {start : Nat} {below V : Forest}
      (conforms : Conforms R g s₁ V s₂) (value : g ∈ [Goal.literalValue, .likeLiteral, .inList]) :
      Form R s .comparison
        ((Forest.node .comparisonOperator start below (V ++ .nil)).labels R.kind) := by
    obtain ⟨v, member, labels⟩ := value_form conforms value
    exact .inr ⟨v, member, by rw [Forest.append_nil, Forest.labels, labels]⟩
  rcases made_cases made with ⟨its, planned, made⟩ | ⟨entered, its, p, rest, rfl, planned, made⟩ |
    ⟨_, rfl, _⟩
  · simp only [plan, comparisonPlan] at planned
    split at planned
    all_goals try split at planned
    all_goals simp only [Plan.expand.injEq, reduceCtorEq] at planned
    all_goals
      subst planned
      simp only [List.map_cons, List.map_nil, made_report, made_nil] at made
      exact .inl (by rw [made.1, Forest.labels])
  · simp only [plan, comparisonPlan] at planned
    split at planned
    all_goals try split at planned
    all_goals simp only [Plan.shift.injEq, reduceCtorEq] at planned
    all_goals obtain ⟨rfl, rfl⟩ := planned
    all_goals
      simp only [token, List.map_cons, List.map_nil, List.cons_append, List.nil_append,
        made_enter, made_take, made_goal, made_leave, made_nil] at made
    all_goals
      first
      | obtain ⟨_, _, rfl, _, _, _, V, _, _, rfl, value, rfl, _⟩ := made
        exact compared value (by simp)
      | obtain ⟨_, _, rfl, _, _, _, _, _, _, _, _, V, _, _, rfl, value, rfl, _⟩ := made
        exact compared value (by simp)
  · exact .inl rfl

theorem inList_form (made : Made R P (R.moves .inList s) s [F] s') :
    F.labels R.kind = [.rule .inList] := by
  rcases made_cases made with ⟨its, planned, made⟩ | ⟨entered, its, p, rest, rfl, planned, made⟩ |
    ⟨_, _, _, entered, its, planned⟩
  · simp only [plan, failed] at planned
    split at planned
    all_goals simp only [Plan.expand.injEq, reduceCtorEq] at planned
    subst planned
    simp only [List.map_cons, List.map_nil, made_enter, made_report, made_leave, made_nil] at made
    grind [Forest.labels]
  · simp only [plan, failed] at planned
    split at planned
    all_goals simp only [Plan.shift.injEq, reduceCtorEq] at planned
    obtain ⟨rfl, rfl⟩ := planned
    simp only [token, List.map_cons, List.map_nil, List.cons_append, List.nil_append, made_enter,
      made_take, made_goal, made_leave, made_nil] at made
    grind [Forest.labels]
  · simp [plan, failed] at planned

theorem subquery_form (made : Made R (Conforms R) (R.moves .subquery s) s [F] s') :
    F.labels R.kind = [] ∨ F.labels R.kind = [.rule .innerQuery] := by
  rcases made_cases made with ⟨its, planned, made⟩ | ⟨entered, its, p, rest, rfl, planned, made⟩ |
    ⟨_, rfl, _⟩
  · simp only [plan] at planned
    split at planned
    all_goals
      simp only [Plan.expand.injEq] at planned
      subst planned
    · simp only [List.map_cons, List.map_nil, made_goal, made_nil] at made
      obtain ⟨_, _, _, rfl, query, rfl, _⟩ := made
      exact .inr (by rw [Forest.append_nil]; exact query.form)
    · simp only [List.map_cons, List.map_nil, made_report, made_nil] at made
      exact .inl (by rw [made.1, Forest.labels])
  · simp only [plan] at planned
    split at planned <;> simp at planned
  · exact .inl rfl

theorem inBody_form (made : Made R (Conforms R) (R.moves .inBody s) s [F] s') :
    F.labels R.kind = [.rule .semiJoin] ∨ .rule .semiJoin ∉ F.labels R.kind := by
  rcases made_cases made with ⟨its, planned, made⟩ | ⟨entered, its, p, rest, rfl, planned, made⟩ |
    ⟨_, rfl, _⟩
  · simp only [plan] at planned
    split at planned
    all_goals simp only [Plan.expand.injEq, reduceCtorEq] at planned
    subst planned
    simp only [List.map_cons, List.map_nil, made_goal, made_nil] at made
    obtain ⟨first, _, _, rfl, value, more, _, _, rfl, values, rfl, _⟩ := made
    refine .inr fun member => ?_
    rw [Forest.append_nil, Forest.labels_append, List.mem_append] at member
    rcases member with member | member
    · exact absurd (value.within .semiJoin member) (by decide)
    · exact absurd (values.within .semiJoin member) (by decide)
  · simp only [plan] at planned
    split at planned
    all_goals simp only [Plan.shift.injEq, reduceCtorEq] at planned
    obtain ⟨rfl, rfl⟩ := planned
    simp only [List.map_cons, List.map_nil, List.cons_append, List.nil_append, made_enter,
      made_take, made_goal, made_leave, made_nil] at made
    refine .inl ?_
    grind [Forest.labels]
  · exact .inr List.not_mem_nil

end Forms

section Shapes

theorem shaped_append {kind : Nat → TokenKind} {F G : Forest} (first : Shaped kind F)
    (second : Shaped kind G) : Shaped kind (F ++ G) :=
  Forest.every_append.mpr ⟨first, second⟩

theorem shaped_nil {kind : Nat → TokenKind} : Shaped kind .nil := trivial

theorem query_shaped (made : Made R (Conforms R) (R.moves .query s) s [F] s') :
    Shaped R.kind F := by
  rw [moves_expand rfl] at made
  simp only [List.map_cons, List.map_nil, made_enter, made_goal, made_endMark, made_leave,
    made_nil] at made
  obtain ⟨_, _, rfl, query, _, _, rfl, inner, behind, _, _, rfl, trailing, _, rfl, rfl, rfl, -⟩ :=
    made
  have marked : (∀ r, .rule r ∉ (R.mark.elim Forest.nil (.leaf · .nil)).labels R.kind) ∧
      Shaped R.kind (R.mark.elim Forest.nil (.leaf · .nil)) := by
    cases R.mark with
    | none => exact ⟨fun r => List.not_mem_nil, trivial⟩
    | some m => exact ⟨by simp [Forest.labels], trivial⟩
  have labels : (query ++ (behind ++ R.mark.elim Forest.nil (.leaf · .nil))).labels R.kind =
      .rule .innerQuery :: (behind ++ R.mark.elim Forest.nil (.leaf · .nil)).labels R.kind := by
    rw [Forest.labels_append, inner.form]
    rfl
  refine ⟨⟨_, labels, fun r member => ?_⟩,
    shaped_append inner.shaped (shaped_append trailing.shaped marked.2), shaped_nil⟩
  rw [Forest.labels_append, List.mem_append] at member
  rcases member with member | member
  · exact absurd (trailing.within r member) List.not_mem_nil
  · exact marked.1 r member

/-- The select list is the first rule of a query. -/
theorem innerQuery_shaped (made : Made R (Conforms R) (R.moves .innerQuery s) s [F] s') :
    Shaped R.kind F := by
  rw [moves_expand rfl] at made
  simp only [token, List.map_cons, List.map_nil, made_enter, made_goal, made_leave,
    made_nil] at made
  obtain ⟨_, _, rfl, word, _, _, rfl, select, list, _, _, rfl, columns, objects, _, _, rfl, source,
    tail, _, _, rfl, clauses, rfl, rfl, -⟩ := made
  refine ⟨⟨word.labels R.kind, (objects ++ (tail ++ .nil)).labels R.kind, ?_, ?_, ?_⟩,
    shaped_append select.shaped (shaped_append columns.shaped
      (shaped_append source.shaped (shaped_append clauses.shaped shaped_nil))), shaped_nil⟩
  · rw [Forest.labels_append, Forest.labels_append _ list, columns.form]
    rfl
  · intro r member
    exact absurd (select.within r member) List.not_mem_nil
  · intro member
    rw [Forest.append_nil, Forest.labels_append, List.mem_append] at member
    rcases member with member | member
    · exact absurd (source.within .selectExprs member) (by decide)
    · exact absurd (clauses.within .selectExprs member) (by decide)

/-- What stands between parentheses, and the closing one. -/
theorem encloses_of_form {p : Nat} {A B : Forest} {q : Rule} (opened : R.kind p = .lParen)
    (body : A.labels R.kind = [.rule q] ∨ .rule q ∉ A.labels R.kind)
    (closed : B.labels R.kind = [] ∨ B.labels R.kind = [.token .rParen]) :
    Encloses q ((Forest.leaf p (A ++ (B ++ .nil))).labels R.kind) ∨
      .rule q ∉ (Forest.leaf p (A ++ (B ++ .nil))).labels R.kind := by
  rw [Forest.append_nil, Forest.labels, Forest.labels_append, opened]
  rcases body with body | body
  · rw [body]
    refine .inl ?_
    rcases closed with closed | closed
    · exact .inl (by rw [closed]; rfl)
    · exact .inr (by rw [closed]; rfl)
  · refine .inr fun member => ?_
    rcases closed with closed | closed <;> simp_all

theorem inList_shaped (made : Made R (Conforms R) (R.moves .inList s) s [F] s') :
    Shaped R.kind F := by
  rcases made_cases made with ⟨its, planned, made⟩ | ⟨entered, its, p, rest, rfl, planned, made⟩ |
    ⟨_, rfl, _⟩
  · simp only [plan, failed] at planned
    split at planned
    all_goals simp only [Plan.expand.injEq, reduceCtorEq] at planned
    subst planned
    simp only [List.map_cons, List.map_nil, made_enter, made_report, made_leave, made_nil] at made
    obtain ⟨_, _, rfl, rfl, rfl, _⟩ := made
    exact ⟨.inr List.not_mem_nil, shaped_nil, shaped_nil⟩
  · simp only [plan, failed] at planned
    split at planned
    all_goals simp only [Plan.shift.injEq, reduceCtorEq] at planned
    rename_i opened
    obtain ⟨rfl, rfl⟩ := planned
    simp only [token, List.map_cons, List.map_nil, List.cons_append, List.nil_append, made_enter,
      made_take, made_goal, made_leave, made_nil] at made
    obtain ⟨_, _, rfl, _, rfl, A, _, _, rfl, body, B, _, _, rfl, closed, rfl, rfl, _⟩ := made
    exact ⟨encloses_of_form (beq_iff_eq.mp opened) body.form closed.form,
      shaped_append body.shaped (shaped_append closed.shaped shaped_nil), shaped_nil⟩
  · exact shaped_nil

/-- A goal that adds no query adds none. -/
theorem Conforms.not_mem {r : Rule} (conforms : Conforms R g s F s') (other : r ∉ g.adds) :
    .rule r ∉ F.labels R.kind :=
  fun member => other (conforms.within r member)

theorem selectExpr_shaped (made : Made R (Conforms R) (R.moves .selectExpr s) s [F] s') :
    Shaped R.kind F := by
  rcases made_cases made with ⟨its, planned, made⟩ | ⟨entered, its, p, rest, rfl, planned, made⟩ |
    ⟨_, rfl, _⟩
  · simp only [plan, failed] at planned
    split at planned
    · simp at planned
    split at planned
    · simp at planned
    split at planned
    all_goals
      simp only [Plan.expand.injEq] at planned
      subst planned
    · simp only [List.map_cons, List.map_nil, made_enter, made_goal, made_leave, made_nil] at made
      obtain ⟨_, _, rfl, A, _, _, rfl, field, B, _, _, rfl, named, rfl, rfl, _⟩ := made
      have first := field.not_mem (r := .innerQuery) (by decide)
      have second := named.not_mem (r := .innerQuery) (by decide)
      refine ⟨.inr ?_, shaped_append field.shaped (shaped_append named.shaped shaped_nil),
        shaped_nil⟩
      simp [first, second]
    · simp only [List.map_cons, List.map_nil, made_enter, made_report, made_leave,
        made_nil] at made
      obtain ⟨_, _, rfl, rfl, rfl, _⟩ := made
      exact ⟨.inr List.not_mem_nil, shaped_nil, shaped_nil⟩
  · simp only [plan, failed] at planned
    split at planned
    · rename_i opened
      simp only [Plan.shift.injEq] at planned
      obtain ⟨rfl, rfl⟩ := planned
      simp only [token, List.map_cons, List.map_nil, List.cons_append, List.nil_append,
        made_enter, made_take, made_goal, made_leave, made_nil] at made
      obtain ⟨_, _, rfl, _, rfl, A, _, _, rfl, body, B, _, _, rfl, closed, rfl, rfl, _⟩ := made
      have query : A.labels R.kind = [.rule .innerQuery] ∨
          .rule .innerQuery ∉ A.labels R.kind := by
        rcases body.form with empty | query
        · exact .inr (by simp [empty])
        · exact .inl query
      exact ⟨encloses_of_form (beq_iff_eq.mp opened) query closed.form,
        shaped_append body.shaped (shaped_append closed.shaped shaped_nil), shaped_nil⟩
    split at planned
    · simp only [Plan.shift.injEq] at planned
      obtain ⟨rfl, rfl⟩ := planned
      simp only [callTail, token, List.map_cons, List.map_nil, List.cons_append, List.nil_append,
        made_enter, made_take, made_goal, made_leave, made_nil] at made
      obtain ⟨_, _, rfl, _, rfl, A, _, _, rfl, opened, B, _, _, rfl, argument, C, _, _, rfl, closed,
        D, _, _, rfl, named, rfl, rfl, _⟩ := made
      have first := opened.not_mem (r := .innerQuery) (by decide)
      have second := argument.not_mem (r := .innerQuery) (by decide)
      have third := closed.not_mem (r := .innerQuery) (by decide)
      have fourth := named.not_mem (r := .innerQuery) (by decide)
      refine ⟨.inr ?_, shaped_append opened.shaped (shaped_append argument.shaped
        (shaped_append closed.shaped (shaped_append named.shaped shaped_nil))), shaped_nil⟩
      simp [Forest.labels, first, second, third, fourth]
    split at planned <;> simp at planned
  · exact shaped_nil

/-- An operand, and the operator and the value if they are there. -/
theorem condition_shape {x : Rule} {A B : Forest}
    (member : x ∈ [Rule.field, .functionCall, .distanceExpr]) (first : A.labels R.kind = [.rule x])
    (second : Form R s .comparison (B.labels R.kind)) :
    Shape .whereExpr ((A ++ (B ++ .nil)).labels R.kind) := by
  rw [Forest.append_nil, Forest.labels_append, first]
  rcases second with empty | ⟨v, value, labels⟩
  · exact .inr ⟨x, member, .inl (by rw [empty]; rfl)⟩
  · exact .inr ⟨x, member, .inr ⟨v, value, by rw [labels]; rfl⟩⟩

theorem whereExpr_shaped (made : Made R (Conforms R) (R.moves .whereExpr s) s [F] s') :
    Shaped R.kind F := by
  rcases made_cases made with ⟨its, planned, made⟩ | ⟨entered, its, p, rest, rfl, planned, made⟩ |
    ⟨_, rfl, _⟩
  · simp only [plan, failed] at planned
    split at planned
    · simp at planned
    split at planned
    · rename_i called
      simp only [Plan.expand.injEq] at planned
      subst planned
      simp only [List.map_cons, List.map_nil, made_enter, made_goal, made_leave, made_nil] at made
      obtain ⟨_, _, rfl, A, _, _, rfl, call, B, _, _, rfl, compared, rfl, rfl, _⟩ := made
      exact ⟨condition_shape (by simp) (call.form called) compared.form,
        shaped_append call.shaped (shaped_append compared.shaped shaped_nil), shaped_nil⟩
    split at planned
    all_goals
      simp only [Plan.expand.injEq] at planned
      subst planned
    · simp only [List.map_cons, List.map_nil, made_enter, made_goal, made_leave, made_nil] at made
      obtain ⟨_, _, rfl, A, _, _, rfl, field, B, _, _, rfl, compared, rfl, rfl, _⟩ := made
      exact ⟨condition_shape (by simp) field.form compared.form,
        shaped_append field.shaped (shaped_append compared.shaped shaped_nil), shaped_nil⟩
    · simp only [List.map_cons, List.map_nil, made_enter, made_report, made_leave,
        made_nil] at made
      obtain ⟨_, _, rfl, rfl, rfl, _⟩ := made
      exact ⟨.inl rfl, shaped_nil, shaped_nil⟩
  · simp only [plan, failed] at planned
    split at planned
    · simp only [Plan.shift.injEq] at planned
      obtain ⟨rfl, rfl⟩ := planned
      obtain ⟨below, next, rfl, body⟩ := made_enter.mp made
      have inside := shaped_of_made (fun _ _ _ _ conforms => conforms.shaped)
        (by simp [shapedRules, token]) body
      obtain ⟨inner, other, rfl, tail⟩ := made_enter.mp body
      simp only [token, List.map_cons, List.map_nil, List.nil_append, List.append_eq, made_take,
        made_goal, made_leave, made_nil] at tail
      obtain ⟨C, s₁, s₂, rfl, compared, rfl⟩ : ∃ C s₁ s₂, other = C ++ .nil ∧
          Conforms R .comparison s₁ C s₂ ∧ next = .nil := by grind
      exact ⟨condition_shape (A := .node .distanceExpr _ inner .nil) (by simp) rfl compared.form,
        inside _ (by simp), shaped_nil⟩
    split at planned
    · simp at planned
    split at planned <;> simp at planned
  · exact shaped_nil

end Shapes

theorem form_of_made (made : Made R (Conforms R) (R.moves g s) s [F] s') :
    Form R s g (F.labels R.kind) := by
  cases g with
  | innerQuery => exact innerQuery_form made
  | selectExprs => exact selectExprs_form made
  | field => exact field_form made
  | inList => exact inList_form made
  | literalValue => exact literalValue_form made
  | likeLiteral => exact likeLiteral_form made
  | functionCall => exact functionCall_form made
  | subquery => exact subquery_form made
  | inBody => exact inBody_form made
  | comparison => exact comparison_form made
  | one k problem => exact one_form made
  | _ => trivial

theorem conforms_of_made (made : Made R (Conforms R) (R.moves g s) s [F] s') :
    Conforms R g s F s' := by
  obtain ⟨nested, within, _⟩ := fits_of_made (fun _ _ _ _ conforms => ⟨conforms.nested,
    conforms.within⟩) admitted_moves made
  refine ⟨nested, within, ?_, form_of_made made⟩
  by_cases shaping : g ∈ shapingGoals
  · simp only [shapingGoals, List.mem_cons, List.not_mem_nil, or_false] at shaping
    rcases shaping with rfl | rfl | rfl | rfl | rfl
    · exact query_shaped made
    · exact innerQuery_shaped made
    · exact selectExpr_shaped made
    · exact inList_shaped made
    · exact whereExpr_shaped made
  · exact shaped_of_made (fun _ _ _ _ conforms => conforms.shaped) (plain_moves shaping) made F
      List.mem_cons_self

end Grammar

end SoqlAssist
