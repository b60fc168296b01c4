import SoqlAssist.Proofs.Grammar.Growth
import SoqlAssist.Proofs.Tree.Walk

/-!
Conditions are apart: before reading enters a condition it has taken a token since the last one, be
the text broken or not. So conditions that come later start later.
-/
namespace SoqlAssist

/-- The rules of the nodes in the order of the array, and nothing for each token. -/
def Forest.rules : Forest → List (Option Rule)
  | .nil => []
  | .leaf _ next => none :: next.rules
  | .node r _ below next => some r :: (below.rules ++ next.rules)

@[simp] theorem Forest.rules_append (F G : Forest) : (F ++ G).rules = F.rules ++ G.rules := by
  induction F with
  | nil => rfl
  | leaf p next ih => rw [leaf_append, rules, rules, ih, List.cons_append]
  | node r s below next _ ih =>
    rw [node_append, rules, rules, ih, List.cons_append, List.append_assoc]

theorem Forest.Lodged.map_rule {t : Tree} {F : Forest} {parent : Option Nat} {i : Nat}
    (lodged : F.Lodged t.nodes parent i) : (List.range' i F.size).map t.rule? = F.rules := by
  induction F generalizing parent i with
  | nil => rfl
  | leaf p next ih =>
    rw [size, List.range'_succ, List.map_cons, lodged.rule_leaf, ih lodged.2, rules]
  | node r s below next ihBelow ihNext =>
    rw [size, List.range'_succ, List.map_cons, lodged.holds.rule,
      ← List.range'_append_1, List.map_append, ihBelow lodged.2.1, ihNext lodged.2.2, rules]

/-- There is a token before each condition and after the condition before it; `ready` says that
there is one before the first. -/
def Spaced (ready : Bool) : List (Option Rule) → Prop
  | [] => True
  | none :: rest => Spaced true rest
  | some r :: rest => (r = .whereExpr → ready = true) ∧ Spaced (ready && r != .whereExpr) rest

theorem Spaced.mono {a b : Bool} {l : List (Option Rule)} (spaced : Spaced a l)
    (weaker : a = true → b = true) : Spaced b l := by
  induction l generalizing a b with
  | nil => trivial
  | cons x l ih =>
    cases x with
    | none => exact spaced
    | some r =>
      refine ⟨fun same => weaker (spaced.1 same), ih spaced.2 ?_⟩
      intro both
      rw [Bool.and_eq_true] at both ⊢
      exact ⟨weaker both.1, both.2⟩

theorem Spaced.append {ready : Bool} {l l' : List (Option Rule)} (first : Spaced ready l)
    (second : Spaced false l') : Spaced ready (l ++ l') := by
  induction l generalizing ready with
  | nil => exact second.mono (by simp)
  | cons x l ih =>
    cases x with
    | none => exact ih first
    | some r => exact ⟨first.1, ih first.2⟩

/-- After a condition the next one is behind a token. -/
theorem Spaced.drop {ready : Bool} {f : Nat → Option Rule} {i k n : Nat}
    (spaced : Spaced ready ((List.range' i k).map f)) (lower : i ≤ n) (upper : n < i + k)
    (rule : f n = some .whereExpr) :
    Spaced false ((List.range' (n + 1) (i + k - (n + 1))).map f) := by
  induction k generalizing i ready with
  | zero => omega
  | succ k ih =>
    rw [List.range'_succ, List.map_cons] at spaced
    have count : i + 1 + k = i + (k + 1) := by omega
    rcases Nat.eq_or_lt_of_le lower with rfl | later
    · rw [rule] at spaced
      have rest : i + (k + 1) - (i + 1) = k := by omega
      rw [rest]
      simpa using spaced.2
    · rw [← count]
      cases first : f i with
      | none =>
        rw [first] at spaced
        exact ih spaced later (by omega)
      | some r =>
        rw [first] at spaced
        exact ih spaced.2 later (by omega)

theorem Spaced.exists_none {f : Nat → Option Rule} {i k n : Nat}
    (spaced : Spaced false ((List.range' i k).map f)) (lower : i ≤ n) (upper : n < i + k)
    (rule : f n = some .whereExpr) : ∃ m, i ≤ m ∧ m < n ∧ f m = none := by
  induction k generalizing i with
  | zero => omega
  | succ k ih =>
    rw [List.range'_succ, List.map_cons] at spaced
    rcases Nat.eq_or_lt_of_le lower with rfl | later
    · rw [rule] at spaced
      exact absurd (spaced.1 rfl) (by simp)
    cases first : f i with
    | none => exact ⟨i, Nat.le_refl i, later, first⟩
    | some r =>
      rw [first] at spaced
      obtain ⟨m, lower, lt, found⟩ := ih spaced.2 later (by omega)
      exact ⟨m, by omega, lt, found⟩

namespace Grammar

def Goal.needsToken : Goal → Bool
  | .whereExprs | .condition | .whereExpr => true
  | _ => false

/-- The moves take a token before each condition; `ready` says that one has been taken. -/
def Paces (ready : Bool) : List Move → Prop
  | [] => True
  | .item (.enter r) :: moves =>
    (r = .whereExpr → ready = true) ∧ Paces (ready && r != .whereExpr) moves
  | .item (.goal g) :: moves => (g.needsToken = true → ready = true) ∧ Paces false moves
  | .take :: moves => Paces true moves
  | _ :: moves => Paces ready moves

variable {R : Reading} {P : Goal → List Nat → Forest → List Nat → Prop} {moves : List Move}
  {s s' : List Nat} {rows : List Forest} {g : Goal} {F : Forest} {ready : Bool}

theorem spaced_rows (spaced : ∀ g s F s', P g s F s' → Spaced g.needsToken F.rules)
    (paces : Paces ready moves) (made : Made R P moves s rows s') :
    Spaced ready (rows.flatMap Forest.rules) := by
  induction moves generalizing s rows ready with
  | nil =>
    obtain ⟨rfl, -⟩ := made
    trivial
  | cons m moves ih =>
    match m with
    | .item (.enter r) =>
      obtain ⟨below, next, others, rfl, made⟩ := made
      have inside := ih paces.2 made
      rw [List.flatMap_cons, List.flatMap_cons, ← List.append_assoc] at inside
      rw [List.flatMap_cons]
      exact ⟨paces.1, inside⟩
    | .item .leave =>
      obtain ⟨others, rfl, made⟩ := made
      have after := ih paces made
      rwa [List.flatMap_cons]
    | .item (.report p) => exact ih paces made
    | .item .endMark =>
      obtain ⟨G, others, rfl, made⟩ := made
      have inside := ih paces made
      cases R.mark with
      | none => exact inside
      | some m => exact inside.mono fun _ => rfl
    | .take =>
      obtain ⟨p, rest, G, others, rfl, rfl, made⟩ := made
      have after := ih paces made
      rwa [List.flatMap_cons] at after ⊢
    | .item (.goal g) =>
      obtain ⟨G, s₁, H, others, rfl, goal, made⟩ := made
      have inside := ih paces.2 made
      have first := (spaced g s G s₁ goal).mono paces.1
      simpa only [List.flatMap_cons, Forest.rules_append, List.append_assoc] using
        first.append inside

theorem paces_moves : Paces g.needsToken (R.moves g s) := by
  refine moves_cases (Q := Paces g.needsToken) trivial fun k₁ k₂ => ?_
  cases g <;>
    simp only [plan, clausePlan, comparisonPlan, valuePlan, withPlan, failed] <;>
    (repeat' split) <;>
    simp [Plan.moves, Paces, Goal.needsToken, token, callTail]

theorem spaced_of_made
    (made : Made R (fun g _ F _ => Spaced g.needsToken F.rules) (R.moves g s) s [F] s') :
    Spaced g.needsToken F.rules := by
  have whole := spaced_rows (fun _ _ _ _ => id) paces_moves made
  rwa [List.flatMap_singleton] at whole

end Grammar

end SoqlAssist
