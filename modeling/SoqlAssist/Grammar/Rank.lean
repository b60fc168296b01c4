import SoqlAssist.Grammar.Plan

/-!
Why reading ends. A goal that takes no token is replaced by goals of smaller total rank, and one
that takes a token leaves goals of bounded rank.
-/
namespace SoqlAssist.Grammar

/-- A bound on the work that a goal causes before the next token is taken. -/
def Goal.rank : Goal → Nat
  | .query => 40
  | .trailing => 4
  | .skipRest => 1
  | .innerQuery => 30
  | .selectExprs => 20
  | .moreColumns => 1
  | .selectExpr => 16
  | .subquery => 31
  | .functionCall => 1
  | .argument => 9
  | .alias => 5
  | .field => 8
  | .dotted => 1
  | .afterDot => 6
  | .identifier => 4
  | .fromPart => 2
  | .fromExprs => 20
  | .moreObjects => 1
  | .fromExpr => 16
  | .clauses => 1
  | .whereExprs => 20
  | .moreConditions => 1
  | .condition => 16
  | .whereExpr => 14
  | .comparison => 2
  | .literalValue => 4
  | .rangeCount => 1
  | .number => 2
  | .signedNumber => 5
  | .likeLiteral => 4
  | .inList => 4
  | .inBody => 6
  | .moreValues => 1
  | .semiField => 9
  | .semiWhere => 1
  | .geolocation => 2
  | .withBody _ => 1
  | .grouping => 14
  | .groupByExprs => 13
  | .moreGroups => 1
  | .groupItem => 9
  | .orderByExpr => 16
  | .moreOrders => 1
  | .nulls => 1
  | .nullsOrder => 2
  | .rowCount => 2
  | .purposes => 2
  | .morePurposes => 1
  | .moreStats => 1
  | .one _ _ => 2
  | .maybe _ => 1

def Item.rank : Item → Nat
  | .goal g => g.rank
  | _ => 1

def rankOf : List Item → Nat
  | [] => 0
  | x :: xs => x.rank + rankOf xs

theorem rankOf_append (xs ys : List Item) : rankOf (xs ++ ys) = rankOf xs + rankOf ys := by
  induction xs with
  | nil => simp only [List.nil_append, rankOf, Nat.zero_add]
  | cons x xs ih => simp only [List.cons_append, rankOf, ih, Nat.add_assoc]

theorem Item.rank_pos (x : Item) : 0 < x.rank := by
  cases x with
  | goal g => cases g <;> exact Nat.succ_pos _
  | _ => exact Nat.succ_pos _

theorem rankOf_lt_cons (x : Item) (xs : List Item) : rankOf xs < rankOf (x :: xs) := by
  have := x.rank_pos
  rw [rankOf]
  omega

/-- A goal that takes no token becomes goals of smaller total rank. -/
theorem rankOf_expand_lt {g : Goal} {k₁ k₂ : TokenKind} {items : List Item}
    (h : plan g k₁ k₂ = .expand items) : rankOf items < g.rank := by
  cases g <;>
    simp only [plan, clausePlan, comparisonPlan, valuePlan, withPlan, failed] at h <;>
    (repeat' split at h) <;>
    simp only [Plan.expand.injEq, reduceCtorEq] at h <;>
    subst h <;>
    simp only [rankOf, Item.rank, Goal.rank, token] <;>
    decide

theorem rankOf_expand_append_lt {g : Goal} {k₁ k₂ : TokenKind} {items stack : List Item}
    (h : plan g k₁ k₂ = .expand items) : rankOf (items ++ stack) < rankOf (.goal g :: stack) := by
  have := rankOf_expand_lt h
  rw [rankOf_append, rankOf]
  exact Nat.add_lt_add_right this _

/-- The rank that taking a token can add. -/
def shiftRank : Nat := 40

/-- The goals that remain when a token is taken have bounded rank. -/
theorem rankOf_shift_le {g : Goal} {k₁ k₂ : TokenKind} {entered : List Rule} {items : List Item}
    (h : plan g k₁ k₂ = .shift entered items) : rankOf items ≤ shiftRank := by
  cases g <;>
    simp only [plan, clausePlan, comparisonPlan, valuePlan, withPlan, failed] at h <;>
    (repeat' split at h) <;>
    simp only [Plan.shift.injEq, reduceCtorEq] at h <;>
    rcases h with ⟨-, rfl⟩ <;>
    simp only [rankOf, Item.rank, Goal.rank, token, callTail] <;>
    decide

theorem rankOf_shift_append_lt {g : Goal} {k₁ k₂ : TokenKind} {entered : List Rule}
    {items stack : List Item} (h : plan g k₁ k₂ = .shift entered items) :
    rankOf (items ++ stack) < shiftRank + rankOf (.goal g :: stack) := by
  have bound := rankOf_shift_le h
  have positive := (Item.goal g).rank_pos
  rw [rankOf_append, rankOf]
  omega

end SoqlAssist.Grammar
