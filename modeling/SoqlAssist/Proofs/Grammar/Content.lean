import SoqlAssist.Proofs.Grammar.Growth
import SoqlAssist.Proofs.Tree.Order

/-!
What can stand below a rule. A table says which rules can stand right below a rule; the rules that
hold a query or make a condition have a shape of their own. Every tree that reading builds conforms,
also where the text is broken.
-/
namespace SoqlAssist

/-- What a tree of a row stands for. -/
inductive Label where
  | token (k : TokenKind)
  | rule (r : Rule)
  deriving DecidableEq, Repr

def Forest.labels (kind : Nat → TokenKind) : Forest → List Label
  | .nil => []
  | .leaf p next => .token (kind p) :: next.labels kind
  | .node r _ _ next => .rule r :: next.labels kind

@[simp] theorem Forest.labels_append (kind : Nat → TokenKind) (F G : Forest) :
    (F ++ G).labels kind = F.labels kind ++ G.labels kind := by
  induction F with
  | nil => rfl
  | leaf p next ih => rw [leaf_append, labels, labels, ih, List.cons_append]
  | node r s below next _ ih => rw [node_append, labels, labels, ih, List.cons_append]

/-- The rules that can stand right below a rule. -/
def Rule.parts : Rule → List Rule
  | .query => [.innerQuery]
  | .innerQuery =>
    [.selectExprs, .fromClause, .usingScope, .whereClause, .havingClause, .withClause,
      .groupByClause, .orderByClause, .limitClause, .offsetClause, .forClause, .updateStatsClause]
  | .semiJoin => [.field, .fromClause, .whereClause]
  | .selectExprs => [.selectExpr]
  | .selectExpr => [.innerQuery, .functionCall, .field, .identifier]
  | .fromClause => [.fromExprs]
  | .fromExprs => [.fromExpr]
  | .fromExpr => [.field, .identifier]
  | .usingScope | .updateStatsClause | .field => [.identifier]
  | .whereClause | .havingClause => [.whereExprs]
  | .whereExprs => [.whereExpr, .whereExprs]
  | .whereExpr =>
    [.field, .functionCall, .distanceExpr, .comparisonOperator, .literalValue, .likeLiteral,
      .inList]
  | .inList => [.literalValue, .semiJoin]
  | .distanceExpr => [.field]
  | .functionCall | .groupByExprs | .orderByField => [.functionCall, .field]
  | .groupByClause => [.groupByExprs]
  | .orderByClause => [.orderByExpr]
  | .orderByExpr => [.orderByField]
  | .comparisonOperator | .literalValue | .likeLiteral | .withClause | .limitClause
  | .offsetClause | .forClause | .identifier => []

namespace Grammar

/-- The rules that a goal can add to the open rule. -/
def Goal.adds : Goal → List Rule
  | .query => [.query]
  | .innerQuery | .subquery => [.innerQuery]
  | .selectExprs => [.selectExprs]
  | .moreColumns | .selectExpr => [.selectExpr]
  | .functionCall => [.functionCall]
  | .argument | .groupItem | .moreGroups => [.functionCall, .field]
  | .alias | .identifier | .dotted | .afterDot | .moreStats => [.identifier]
  | .field | .semiField => [.field]
  | .fromPart => [.fromClause]
  | .fromExprs => [.fromExprs]
  | .moreObjects | .fromExpr => [.fromExpr]
  | .clauses =>
    [.usingScope, .whereClause, .havingClause, .withClause, .groupByClause, .orderByClause,
      .limitClause, .offsetClause, .forClause, .updateStatsClause]
  | .whereExprs => [.whereExprs]
  | .moreConditions | .condition => [.whereExpr, .whereExprs]
  | .whereExpr => [.whereExpr]
  | .comparison => [.comparisonOperator, .literalValue, .likeLiteral, .inList]
  | .literalValue | .moreValues => [.literalValue]
  | .likeLiteral => [.likeLiteral]
  | .inList => [.inList]
  | .inBody => [.literalValue, .semiJoin]
  | .semiWhere => [.whereClause]
  | .grouping | .groupByExprs => [.groupByExprs]
  | .orderByExpr | .moreOrders => [.orderByExpr]
  | _ => []

/-- With rows that may hold these rules, innermost first, the moves add only what they may. -/
def Admitted : List (List Rule) → List Move → Prop
  | cs, [] => cs.length = 1
  | [], _ => False
  | c :: cs, .item (.enter r) :: moves => r ∈ c ∧ Admitted (r.parts :: c :: cs) moves
  | _ :: cs, .item .leave :: moves => Admitted cs moves
  | c :: cs, .item (.goal g) :: moves => g.adds ⊆ c ∧ Admitted (c :: cs) moves
  | c :: cs, _ :: moves => Admitted (c :: cs) moves

def Within (kind : Nat → TokenKind) (F : Forest) (c : List Rule) : Prop :=
  ∀ r, .rule r ∈ F.labels kind → r ∈ c

def Nested (kind : Nat → TokenKind) (F : Forest) : Prop :=
  F.Every fun r _ below => Within kind below r.parts

def Fits (kind : Nat → TokenKind) : List Forest → List (List Rule) → Prop
  | [], cs => cs = []
  | _ :: _, [] => False
  | F :: others, c :: cs => Nested kind F ∧ Within kind F c ∧ Fits kind others cs

variable {R : Reading} {P : Goal → List Nat → Forest → List Nat → Prop} {moves : List Move}
  {s s' : List Nat} {rows : List Forest} {g : Goal}

theorem within_nil {kind : Nat → TokenKind} {c : List Rule} : Within kind .nil c :=
  fun _ member => absurd member List.not_mem_nil

theorem within_leaf {kind : Nat → TokenKind} {p : Nat} {F : Forest} {c : List Rule} :
    Within kind (.leaf p F) c ↔ Within kind F c := by
  simp [Within, Forest.labels]

theorem within_node {kind : Nat → TokenKind} {r : Rule} {p : Nat} {below F : Forest}
    {c : List Rule} : Within kind (.node r p below F) c ↔ r ∈ c ∧ Within kind F c := by
  simp [Within, Forest.labels]

theorem within_append {kind : Nat → TokenKind} {F G : Forest} {c : List Rule} :
    Within kind (F ++ G) c ↔ Within kind F c ∧ Within kind G c := by
  simp [Within, or_imp, forall_and]

theorem fits_of_made
    (nested : ∀ g s F s', P g s F s' → Nested R.kind F ∧ Within R.kind F g.adds)
    {cs : List (List Rule)} (admitted : Admitted cs moves) (made : Made R P moves s rows s') :
    Fits R.kind rows cs := by
  induction moves generalizing s rows cs with
  | nil =>
    obtain ⟨rfl, -⟩ := made
    obtain ⟨c, rfl⟩ := List.length_eq_one_iff.mp admitted
    exact ⟨trivial, within_nil, rfl⟩
  | cons m moves ih =>
    cases cs with
    | nil => exact absurd admitted id
    | cons c cs =>
      match m with
      | .item (.enter r) =>
        obtain ⟨below, next, others, rfl, made⟩ := made
        obtain ⟨below_nested, below_within, next_nested, next_within, others_fit⟩ :=
          ih admitted.2 made
        exact ⟨⟨below_within, below_nested, next_nested⟩,
          within_node.mpr ⟨admitted.1, next_within⟩, others_fit⟩
      | .item .leave =>
        obtain ⟨others, rfl, made⟩ := made
        exact ⟨trivial, within_nil, ih admitted made⟩
      | .item (.report p) => exact ih admitted made
      | .item .endMark =>
        obtain ⟨F, others, rfl, made⟩ := made
        obtain ⟨F_nested, F_within, others_fit⟩ := ih admitted made
        cases R.mark with
        | none => exact ⟨F_nested, F_within, others_fit⟩
        | some m => exact ⟨F_nested, within_leaf.mpr F_within, others_fit⟩
      | .take =>
        obtain ⟨p, rest, F, others, rfl, rfl, made⟩ := made
        obtain ⟨F_nested, F_within, others_fit⟩ := ih admitted made
        exact ⟨F_nested, within_leaf.mpr F_within, others_fit⟩
      | .item (.goal g) =>
        obtain ⟨F, s₁, G, others, rfl, goal, made⟩ := made
        obtain ⟨G_nested, G_within, others_fit⟩ := ih admitted.2 made
        obtain ⟨F_nested, F_within⟩ := nested g s F s₁ goal
        exact ⟨Forest.every_append.mpr ⟨F_nested, G_nested⟩,
          within_append.mpr ⟨fun r member => admitted.1 (F_within r member), G_within⟩,
          others_fit⟩

theorem admitted_moves : Admitted [g.adds] (R.moves g s) := by
  refine moves_cases (Q := Admitted [g.adds]) rfl fun k₁ k₂ => ?_
  cases g <;>
    simp only [plan, clausePlan, comparisonPlan, valuePlan, withPlan, failed] <;>
    (repeat' split) <;>
    simp [Plan.moves, Admitted, Goal.adds, Rule.parts, token, callTail]

end Grammar

end SoqlAssist
