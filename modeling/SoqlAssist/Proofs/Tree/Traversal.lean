import Mathlib.Data.List.Nodup
import SoqlAssist.Proofs.Tree.Walk
import SoqlAssist.Proofs.Tree.WellFormed

/-!
The walk over any tree that steps build is the recursive traversal of its first node. The loop with
its stack comes to an end, since links go down the array; each node for a rule below the first is
entered once and left once, in the manner of brackets, and the nodes are entered in the order of the
array.
-/
namespace SoqlAssist

namespace Visit

/-- Each entry has its exit behind it, and what is between the two is paired in the same way. -/
inductive Paired : List Visit → Prop where
  | nil : Paired []
  | around (id : Nat) (rule : Rule) {inside next : List Visit} (below : Paired inside)
      (rest : Paired next) : Paired (.enter id rule :: (inside ++ .leave id rule :: next))

theorem Paired.count_leave {visits : List Visit} (paired : Paired visits) (id : Nat) (rule : Rule) :
    visits.count (.leave id rule) = visits.count (.enter id rule) := by
  induction paired with
  | nil => rfl
  | around n r below rest ihBelow ihRest =>
    have same : Visit.leave n r = .leave id rule ↔ Visit.enter n r = .enter id rule := by simp
    simp only [List.count_cons, List.count_append, ihBelow, ihRest, beq_iff_eq, same, reduceCtorEq,
      if_false]
    omega

theorem count_enter (visits : List Visit) (id : Nat) (rule : Rule) :
    visits.count (.enter id rule) = (visits.filterMap entered?).count (id, rule) := by
  induction visits with
  | nil => rfl
  | cons v visits ih =>
    cases v with
    | enter n r =>
      rw [List.filterMap_cons_some (show entered? (.enter n r) = some (n, r) from rfl),
        List.count_cons, List.count_cons, ih]
      simp
    | leave n r =>
      rw [List.filterMap_cons_none (show entered? (.leave n r) = none from rfl), ← ih]
      exact List.count_cons_of_ne (by simp)

end Visit

namespace Tree

/-- The turns of the loop of a walk: with the first stack to be visited they are these moments, and
the second stack is left to be visited. -/
inductive Turns (t : Tree) : List Pending → List Visit → List Pending → Prop where
  | refl (stack : List Pending) : Turns t stack [] stack
  | skip {id : Nat} {stack left : List Pending} {visits : List Visit} (other : t.rule? id = none)
      (rest : Turns t stack visits left) : Turns t (.enter id :: stack) visits left
  | enter {id : Nat} {rule : Rule} {stack left : List Pending} {visits : List Visit}
      (found : t.rule? id = some rule)
      (rest : Turns t ((t.children id).map .enter ++ .leave id :: stack) visits left) :
      Turns t (.enter id :: stack) (.enter id rule :: visits) left
  | leave {id : Nat} {rule : Rule} {stack left : List Pending} {visits : List Visit}
      (found : t.rule? id = some rule) (rest : Turns t stack visits left) :
      Turns t (.leave id :: stack) (.leave id rule :: visits) left

theorem Turns.trans {t : Tree} {stack middle left : List Pending} {visits later : List Visit}
    (first : t.Turns stack visits middle) (second : t.Turns middle later left) :
    t.Turns stack (visits ++ later) left := by
  induction first with
  | refl => exact second
  | skip other _ ih => exact .skip other (ih second)
  | enter found _ ih => exact .enter found (ih second)
  | leave found _ ih => exact .leave found (ih second)

/-- The visits below and at a node, children from left to right between its entry and its exit. A
link that does not go down the array is not followed, so the recursion ends on any array. -/
def traverse (t : Tree) (id : Nat) : List Visit :=
  match t.rule? id with
  | some rule =>
    .enter id rule ::
      ((t.children id).flatMap (fun c => if id < c ∧ c < t.size then traverse t c else []) ++
        [.leave id rule])
  | none => []
termination_by t.size - id

end Tree

namespace Forest

theorem paired_visits (F : Forest) (i : Nat) : Visit.Paired (F.visits i) := by
  induction F generalizing i with
  | nil => exact .nil
  | leaf p next ih => exact ih (i + 1)
  | node r s below next ihBelow ihNext =>
    exact .around i r (ihBelow (i + 1)) (ihNext (i + 1 + below.size))

namespace Lodged

variable {t : Tree} {F : Forest} {parent : Option Nat} {i a : Nat}

/-- The loop is through with a row when it is back at what stood behind the row. -/
theorem turns_roots (lodged : F.Lodged t.nodes parent i) (rest : List Tree.Pending) :
    t.Turns ((F.roots i).map .enter ++ rest) (F.visits i) rest := by
  induction F generalizing parent i rest with
  | nil => exact .refl rest
  | leaf p next ih => exact .skip lodged.rule_leaf (ih lodged.2 rest)
  | node r s below next ihBelow ihNext =>
    have held := lodged.holds
    refine .enter held.rule ?_
    rw [held.children]
    exact (ihBelow lodged.2.1 _).trans (.leave held.rule (ihNext lodged.2.2 rest))

theorem flatMap_traverse (lodged : F.Lodged t.nodes parent i) (after : a < i)
    (within : i + F.size ≤ t.size) :
    (F.roots i).flatMap (fun c => if a < c ∧ c < t.size then t.traverse c else []) =
      F.visits i := by
  induction F generalizing parent i a with
  | nil => rfl
  | leaf p next ih =>
    rw [size] at within
    have self : t.traverse i = [] := by rw [Tree.traverse, lodged.rule_leaf]
    rw [roots, List.flatMap_cons, if_pos ⟨after, by omega⟩, self, visits,
      ih lodged.2 (by omega) (by omega), List.nil_append]
  | node r s below next ihBelow ihNext =>
    rw [size] at within
    have self : t.traverse i = .enter i r :: (below.visits (i + 1) ++ [.leave i r]) := by
      rw [Tree.traverse, lodged.holds.rule, lodged.holds.children]
      exact congrArg (fun inside => .enter i r :: (inside ++ [.leave i r]))
        (ihBelow lodged.2.1 (Nat.lt_succ_self i) (by omega))
    rw [roots, List.flatMap_cons, if_pos ⟨after, by omega⟩, self, visits,
      ihNext lodged.2.2 (by omega) (by omega), List.cons_append, List.append_assoc,
      List.singleton_append]

end Lodged

end Forest

namespace Tree

open Forest

variable {t : Tree} {F : Forest} {r : Rule} {s : Nat} {below : Forest}

section Planted

variable (lodged : F.Lodged t.nodes none 0) (size : t.size = F.size)
include lodged size

/-- In a built tree every link goes down the array, so all of them are followed. -/
theorem traverse_eq (n : Nat) :
    t.traverse n = (t.rule? n).elim [] fun r =>
      .enter n r :: ((t.children n).flatMap t.traverse ++ [.leave n r]) := by
  rw [traverse, flatMap_children lodged size]
  cases t.rule? n <;> rfl

/-- The first node is no rule and has nothing below it, or it holds a forest in the array. -/
theorem first_cases : (t.rule? 0 = none ∧ t.children 0 = []) ∨
    ∃ r s below, t.Holds 0 r s below ∧ below.size < t.size := by
  rcases childless_or_holds lodged size 0 with other | ⟨r, s, below, held⟩
  · exact .inl other
  have present : 0 < t.size := by
    obtain ⟨⟨_, found⟩, _⟩ := held
    exact (Array.getElem?_eq_some_iff.mp found).1
  rcases lodged.locate (Nat.le_refl 0) (by omega) with
    ⟨_, _, _, unruled⟩ | ⟨r', s', below', held', inside, _⟩
  · rw [held.rule] at unruled
    cases unruled
  · exact .inr ⟨r', s', below', held', by omega⟩

end Planted

section Numbered

def numbered (t : Tree) (k : Nat) : List (Nat × Rule) :=
  (List.range k).filterMap fun n => (t.rule? n).map (n, ·)

theorem mem_numbered {k n : Nat} : (n, r) ∈ t.numbered k ↔ n < k ∧ t.rule? n = some r := by
  rw [numbered, List.mem_filterMap]
  constructor
  · rintro ⟨m, member, found⟩
    obtain ⟨r', rule, same⟩ := Option.map_eq_some_iff.mp found
    obtain ⟨rfl, rfl⟩ := Prod.mk.inj same
    exact ⟨List.mem_range.mp member, rule⟩
  · rintro ⟨lt, rule⟩
    exact ⟨n, List.mem_range.mpr lt, by rw [rule]; rfl⟩

theorem increasing_numbered (t : Tree) (k : Nat) :
    ((t.numbered k).map (·.1)).Pairwise (· < ·) := by
  rw [List.pairwise_map, numbered]
  refine List.pairwise_lt_range.filterMap _ ?_
  intro m n lt x first y second
  obtain ⟨_, _, rfl⟩ := Option.map_eq_some_iff.mp first
  obtain ⟨_, _, rfl⟩ := Option.map_eq_some_iff.mp second
  exact lt

theorem nodup_numbered (t : Tree) (k : Nat) : (t.numbered k).Nodup :=
  List.Nodup.of_map _ ((t.increasing_numbered k).imp Nat.ne_of_lt)

end Numbered

section First

variable (held : t.Holds 0 r s below) (within : below.size < t.size)
include held within

theorem ruleNodes_of_holds :
    t.ruleNodes = t.numbered (below.size + 1) := by
  obtain ⟨parent, lodged⟩ := held.lodged
  rw [ruleNodes, walk_of_holds held within, lodged.filterMap_entered, numbered,
    List.range_eq_range']
  rfl

theorem traverse_of_holds : t.traverse 0 = (Forest.node r s below .nil).visits 0 := by
  rw [traverse, held.rule, held.children]
  exact congrArg (fun inside => .enter 0 r :: (inside ++ [.leave 0 r]))
    (held.2.flatMap_traverse (Nat.lt_succ_self 0) (by omega))

end First

/-- A walk that starts at no rule has nothing to visit. -/
theorem walk_of_other (other : t.rule? 0 = none) : t.walk = [] := by
  rw [walk]
  cases 2 * t.size with
  | zero => rfl
  | succ budget => rw [walkFrom, other]; exact walkFrom_nil t budget

/-- The walk over a tree built from any steps ends, with nothing left on its stack, and is the
recursive traversal of the first node: nothing for a token, and for a rule its entry, the children
in order and its exit. Entries and exits are paired; each rule at or below the first node is entered
once and left once, and no others; and the nodes are entered in increasing order. -/
theorem walk_eq_traverse (steps : List TreeStep) :
    let t := ofSteps steps
    t.Turns [.enter 0] t.walk [] ∧ t.walk = t.traverse 0 ∧
      (∀ n, t.traverse n = (t.rule? n).elim [] fun r =>
        .enter n r :: ((t.children n).flatMap t.traverse ++ [.leave n r])) ∧
      Visit.Paired t.walk ∧
      (∀ n r, (n = 0 ∨ t.Below 0 n) → t.rule? n = some r →
        t.walk.count (.enter n r) = 1 ∧ t.walk.count (.leave n r) = 1) ∧
      (∀ n r, (n, r) ∈ t.ruleNodes ↔ (n = 0 ∨ t.Below 0 n) ∧ t.rule? n = some r) ∧
      (t.ruleNodes.map (·.1)).Pairwise (· < ·) := by
  intro t
  obtain ⟨size, lodged⟩ := ofSteps_lodged steps
  have equation := traverse_eq lodged size
  rcases first_cases lodged size with ⟨other, childless⟩ | ⟨r, s, below, held, within⟩
  · have nothing : t.walk = [] := walk_of_other other
    have nodes : t.ruleNodes = [] := by rw [ruleNodes, nothing, List.filterMap_nil]
    have unruled (n : Nat) (r : Rule) (inside : n = 0 ∨ t.Below 0 n) : t.rule? n ≠ some r := by
      rcases inside with rfl | path
      · rw [other]
        simp
      · obtain ⟨c, member, _⟩ := Relation.TransGen.head'_iff.mp path
        rw [childless] at member
        exact absurd member List.not_mem_nil
    rw [nothing, nodes]
    have first : t.traverse 0 = [] := by rw [equation, other, Option.elim_none]
    refine ⟨.skip other (.refl []), first.symm, equation, .nil, ?_, ?_, .nil⟩
    · intro n r inside rule
      exact absurd rule (unruled n r inside)
    · intro n r
      refine iff_of_false List.not_mem_nil ?_
      rintro ⟨inside, rule⟩
      exact unruled n r inside rule
  · obtain ⟨parent, single⟩ := held.lodged
    have walked := walk_of_holds held within
    have nodes : t.ruleNodes = t.numbered (below.size + 1) := ruleNodes_of_holds held within
    have inside (n : Nat) : (n = 0 ∨ t.Below 0 n) ↔ n < below.size + 1 := by
      rw [below_iff lodged size held]
      omega
    have paired : Visit.Paired t.walk := walked ▸ paired_visits _ 0
    refine ⟨?_, walked.trans (traverse_of_holds held within).symm, equation, paired, ?_, ?_, ?_⟩
    · rw [walked]
      exact single.turns_roots []
    · intro n r' member rule
      have once : t.walk.count (.enter n r') = 1 := by
        rw [Visit.count_enter, ← ruleNodes, nodes]
        exact List.count_eq_one_of_mem (t.nodup_numbered _)
          (mem_numbered.mpr ⟨(inside n).mp member, rule⟩)
      exact ⟨once, (paired.count_leave n r').trans once⟩
    · intro n r'
      rw [nodes, mem_numbered, inside]
    · rw [nodes]
      exact t.increasing_numbered _

/-- A closing too many, and behind the first tree a token and a rule that is left open. -/
def looseSteps : List TreeStep :=
  [.finish, .start .field 0, .start .identifier 0, .token 0, .finish, .token 1,
    .start .identifier 2, .finish, .finish, .token 3, .start .query 4]

theorem walk_eq_traverse_looseSteps :
    let t := ofSteps looseSteps
    (t.Below 0 4 ∧ t.rule? 4 = some .identifier) ∧
      (t.walk.count (.enter 4 .identifier) = 1 ∧ t.walk.count (.leave 4 .identifier) = 1) ∧
      t.rule? 6 = some .query ∧ (6, Rule.query) ∉ t.ruleNodes := by
  have below : (ofSteps looseSteps).Below 0 4 := .single (by decide)
  have rule : (ofSteps looseSteps).rule? 4 = some .identifier := by decide
  obtain ⟨_, _, _, _, once, _⟩ := walk_eq_traverse looseSteps
  exact ⟨⟨below, rule⟩, once 4 .identifier (.inr below) rule, by decide, by decide⟩

end Tree

end SoqlAssist
