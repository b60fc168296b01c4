import Mathlib.Data.List.Basic
import Mathlib.Logic.Relation
import SoqlAssist.Proofs.Tree.Layout
import SoqlAssist.Proofs.Tree.Order

/-!
Trees from any steps. Steps need not pair up: to close with no rule open does nothing, and what is
left open is closed at the end. They describe a forest all the same, and the tree that they build is
that of the forest; so in every tree the links up and down agree, the nodes below a node come right
after it, and a rule ends with the last token below it.
-/
namespace SoqlAssist

namespace Forest

/-- The rows that steps describe, read from the last step to the first: the row that the steps add
to, and the rows that they go on with each time they close a rule which they have not opened. -/
def rows : List TreeStep → Forest × List Forest
  | [] => (.nil, [])
  | .token p :: steps => (.leaf p (rows steps).1, (rows steps).2)
  | .start r s :: steps =>
    (.node r s (rows steps).1 ((rows steps).2.headD .nil), (rows steps).2.tail)
  | .finish :: steps => (.nil, (rows steps).1 :: (rows steps).2)

def join : List Forest → Forest
  | [] => .nil
  | F :: around => F ++ join around

/-- The forest that steps describe when no rule is open before them. -/
def ofSteps (steps : List TreeStep) : Forest :=
  (rows steps).1 ++ join (rows steps).2

/-- The steps of the rows, with a closing before each row but the first. -/
def rowSteps (row : Forest) (around : List Forest) : List TreeStep :=
  row.steps ++ around.flatMap fun F => .finish :: F.steps

theorem steps_join (around : List Forest) : (join around).steps = around.flatMap steps := by
  induction around with
  | nil => rfl
  | cons F around ih => rw [join, steps_append, ih, List.flatMap_cons]

end Forest

namespace TreeBuilder

open Forest

variable {b : TreeBuilder}

theorem run_append (b : TreeBuilder) (first second : List TreeStep) :
    b.run (first ++ second) = (b.run first).run second :=
  List.foldl_append ..

theorem finishRule_idle (idle : b.opened = []) : b.finishRule = b := by
  obtain ⟨nodes, _⟩ := b
  subst idle
  rfl

/-- A rule closed before the end would have been closed then. -/
theorem toTree_finishRule (b : TreeBuilder) : b.finishRule.toTree = b.toTree := by
  cases opened : b.opened with
  | nil => rw [finishRule_idle opened]
  | cons id rest =>
    have left : b.finishRule.opened = rest := by rw [finishRule_eq opened]
    rw [toTree, toTree, finishAll, finishAll, left, opened, List.foldl_cons]

/-- Steps build what the rows that they describe do. -/
theorem toTree_run_rows (steps : List TreeStep) (b : TreeBuilder) :
    (b.run (rowSteps (rows steps).1 (rows steps).2)).toTree = (b.run steps).toTree := by
  induction steps generalizing b with
  | nil => rfl
  | cons step steps ih =>
    have rest := ih (b.step step)
    cases step with
    | token p => exact rest
    | finish => exact rest
    | start r s =>
      rcases described : rows steps with ⟨row, around⟩
      rw [described] at rest
      simp only [rows, described]
      cases around with
      | cons next around =>
        have same : rowSteps (.node r s row next) around =
            .start r s :: rowSteps row (next :: around) := by
          simp [rowSteps, Forest.steps]
        exact (congrArg (fun steps => (b.run steps).toTree) same).trans rest
      | nil =>
        -- The rule is left open: its row is the last, and closing it makes no difference.
        have closed : rowSteps (.node r s row .nil) [] =
            .start r s :: rowSteps row [] ++ [.finish] := by
          simp [rowSteps, Forest.steps]
        rw [List.headD_nil, List.tail_nil, closed, run_append]
        exact (toTree_finishRule _).trans rest

/-- With no rule open closings do nothing. -/
theorem run_idle (around : List Forest) {b : TreeBuilder} (idle : b.opened = []) :
    b.run (around.flatMap fun F => .finish :: F.steps) = b.run (around.flatMap Forest.steps) := by
  induction around generalizing b with
  | nil => rfl
  | cons F around ih =>
    have sound : b.Sound := by
      intro j member
      rw [idle] at member
      exact absurd member List.not_mem_nil
    have after : (b.run F.steps).opened = [] := (run_steps F sound).opened.trans idle
    have skipped : b.run (.finish :: F.steps) = b.run F.steps :=
      congrArg (TreeBuilder.run · F.steps) (finishRule_idle idle)
    rw [List.flatMap_cons, List.flatMap_cons, run_append, run_append, skipped, ih after]

end TreeBuilder

namespace Tree

open Forest TreeBuilder

/-- Steps build the tree of the forest that they describe. -/
theorem ofSteps_eq_forest (steps : List TreeStep) :
    ofSteps (Forest.ofSteps steps).steps = ofSteps steps := by
  have idle : (TreeBuilder.empty.run (rows steps).1.steps).opened = [] :=
    (run_steps _ fun j member => absurd member List.not_mem_nil).opened
  have described := toTree_run_rows steps .empty
  rw [rowSteps, run_append, run_idle _ idle] at described
  rw [ofSteps, Forest.ofSteps, steps_append, steps_join, run_append]
  exact described

theorem ofSteps_lodged (steps : List TreeStep) :
    (ofSteps steps).size = (Forest.ofSteps steps).size ∧
      (Forest.ofSteps steps).Lodged (ofSteps steps).nodes none 0 := by
  have held := ofSteps_forest (Forest.ofSteps steps)
  rwa [ofSteps_eq_forest] at held

end Tree

/-- The node that a step adds: its kind and where it starts. -/
def TreeStep.opening? : TreeStep → Option (NodeKind × Nat)
  | .start r s => some (.rule r, s)
  | .token p => some (.token p, p)
  | .finish => none

namespace Tree

def opening? (t : Tree) (n : Nat) : Option (NodeKind × Nat) :=
  t.nodes[n]?.map fun node => (node.kind, node.start)

def Below (t : Tree) : Nat → Nat → Prop :=
  Relation.TransGen fun p c => c ∈ t.children p

/-- The links, the order and the spans of a tree fit together. -/
structure WellFormed (t : Tree) : Prop where
  /-- The links up are the links down. -/
  child_iff : ∀ p c, c ∈ t.children p ↔ t.parent? c = some p
  /-- Parents come before their children. -/
  parent_lt : ∀ p c, c ∈ t.children p → p < c
  children_increase : ∀ p, (t.children p).Pairwise (· < ·)
  token_childless : ∀ n i, t.token? n = some i → t.children n = []
  /-- The nodes below a node come right after it. -/
  below_contiguous : ∀ p, ∃ k, ∀ n, t.Below p n ↔ p < n ∧ n ≤ p + k
  /-- A rule ends with the last token below it, if there is one. -/
  stop_iff : ∀ p r, t.rule? p = some r → ∀ i, t.stop? p = some i ↔
    ∃ n, t.Below p n ∧ t.token? n = some i ∧ ∀ m, t.Below p m → n < m → t.token? m = none

end Tree

namespace Forest

theorem openings_join (around : List Forest) :
    (join around).steps.filterMap TreeStep.opening? =
      (around.flatMap fun F => .finish :: F.steps).filterMap TreeStep.opening? := by
  induction around with
  | nil => rfl
  | cons F around ih =>
    rw [join, steps_append, List.filterMap_append, ih, List.flatMap_cons, List.filterMap_append,
      List.filterMap_cons_none (f := TreeStep.opening?) rfl]

theorem openings_rows (steps : List TreeStep) :
    (rowSteps (rows steps).1 (rows steps).2).filterMap TreeStep.opening? =
      steps.filterMap TreeStep.opening? := by
  induction steps with
  | nil => rfl
  | cons step steps ih =>
    rcases described : rows steps with ⟨row, around⟩
    rw [described] at ih
    cases step with
    | token p =>
      simpa [rows, described, rowSteps, Forest.steps, List.filterMap_cons, TreeStep.opening?]
        using ih
    | finish =>
      simpa [rows, described, rowSteps, Forest.steps, List.filterMap_cons, TreeStep.opening?]
        using ih
    | start r s =>
      cases around <;>
        simpa [rows, described, rowSteps, Forest.steps, List.filterMap_cons, TreeStep.opening?]
          using ih

/-- The forest that steps describe has the nodes that the steps add, in their order. -/
theorem openings_ofSteps (steps : List TreeStep) :
    (ofSteps steps).steps.filterMap TreeStep.opening? = steps.filterMap TreeStep.opening? := by
  rw [ofSteps, steps_append, List.filterMap_append, openings_join, ← List.filterMap_append]
  exact openings_rows steps

theorem increasing_roots (F : Forest) (i : Nat) : (F.roots i).Pairwise (· < ·) := by
  induction F generalizing i with
  | nil => exact List.Pairwise.nil
  | leaf p next ih =>
    refine List.pairwise_cons.mpr ⟨fun c member => ?_, ih (i + 1)⟩
    have bounds := mem_roots member
    omega
  | node r s below next _ ih =>
    refine List.pairwise_cons.mpr ⟨fun c member => ?_, ih (i + 1 + below.size)⟩
    have bounds := mem_roots member
    omega

namespace Lodged

variable {t : Tree} {F : Forest} {parent : Option Nat} {i n p c : Nat}

theorem filterMap_opening (lodged : F.Lodged t.nodes parent i) :
    (List.range' i F.size).filterMap t.opening? = F.steps.filterMap TreeStep.opening? := by
  induction F generalizing parent i with
  | nil => rfl
  | leaf p next ih =>
    have self : t.opening? i = some (.token p, p) := by simp [Tree.opening?, lodged.1]
    rw [size, List.range'_succ, List.filterMap_cons_some self, ih lodged.2, steps]
    rfl
  | node r s below next ihBelow ihNext =>
    have self : t.opening? i = some (.rule r, s) := by simp [Tree.opening?, lodged.1]
    rw [size, List.range'_succ, List.filterMap_cons_some self, ← List.range'_append_1,
      List.filterMap_append, ihBelow lodged.2.1, ihNext lodged.2.2, steps,
      List.filterMap_cons_some (f := TreeStep.opening?) rfl, List.filterMap_append,
      List.filterMap_cons_none (f := TreeStep.opening?) rfl]

/-- A node is a token without children or holds a forest. -/
theorem locate_children (lodged : F.Lodged t.nodes parent i) (lower : i ≤ n)
    (upper : n < i + F.size) :
    (t.rule? n = none ∧ t.children n = []) ∨ ∃ r s below, t.Holds n r s below := by
  induction F generalizing parent i with
  | nil =>
    rw [size] at upper
    omega
  | leaf p next ih =>
    rw [size] at upper
    rcases Nat.eq_or_lt_of_le lower with rfl | later
    · exact .inl ⟨by simp [Tree.rule?, lodged.1], by simp [Tree.children, lodged.1]⟩
    · exact ih lodged.2 later (by omega)
  | node r s below next ihBelow ihNext =>
    rw [size] at upper
    rcases Nat.eq_or_lt_of_le lower with rfl | later
    · exact .inr ⟨r, s, below, lodged.holds⟩
    by_cases inside : n < i + 1 + below.size
    · exact ihBelow lodged.2.1 later inside
    · exact ihNext lodged.2.2 (by omega) (by omega)

end Lodged

end Forest

namespace Tree

open Forest

variable {t : Tree} {F : Forest} {n p c s : Nat} {r : Rule} {below : Forest}

section Planted

variable (lodged : F.Lodged t.nodes none 0) (size : t.size = F.size)
include lodged size

/-- A node that is no rule has no children, also one that is not there. -/
theorem childless_or_holds (n : Nat) :
    (t.rule? n = none ∧ t.children n = []) ∨ ∃ r s below, t.Holds n r s below := by
  rcases Nat.lt_or_ge n t.size with lt | ge
  · exact lodged.locate_children (Nat.zero_le n) (by omega)
  · have absent : t.nodes[n]? = none := Array.getElem?_eq_none ge
    exact .inl ⟨by simp [rule?, absent], by simp [children, absent]⟩

theorem holds_of_child (member : c ∈ t.children p) :
    ∃ r s below, t.Holds p r s below ∧ c ∈ below.roots (p + 1) := by
  rcases childless_or_holds lodged size p with ⟨_, childless⟩ | ⟨r, s, below, held⟩
  · rw [childless] at member
    exact absurd member List.not_mem_nil
  · rw [held.children] at member
    exact ⟨r, s, below, held, member⟩

theorem mem_children_iff : c ∈ t.children p ↔ t.parent? c = some p := by
  constructor
  · intro member
    obtain ⟨_, _, _, held, root⟩ := holds_of_child lodged size member
    exact held.2.parent_root root
  · intro parent
    have present := lt_size_of_parent parent
    rcases lodged.child_of (Nat.zero_le c) (by omega) with root | ⟨a, r, s, below, held, member, _⟩
    · have top := lodged.parent_root root
      rw [parent] at top
      cases top
    · obtain rfl : a = p := Option.some.inj ((held.2.parent_root member).symm.trans parent)
      rwa [held.children]

theorem lt_of_mem_children (member : c ∈ t.children p) : p < c := by
  obtain ⟨_, _, _, _, root⟩ := holds_of_child lodged size member
  exact (mem_roots root).1

/-- Links go down the array, so a recursion that follows only such links follows all of them. -/
theorem flatMap_children {α : Type} (f : Nat → List α) (p : Nat) :
    ((t.children p).flatMap fun c => if p < c ∧ c < t.size then f c else []) =
      (t.children p).flatMap f := by
  refine List.flatMap_congr fun c member => if_pos ⟨lt_of_mem_children lodged size member, ?_⟩
  exact lt_size_of_parent ((mem_children_iff lodged size).mp member)

theorem increasing_children (p : Nat) : (t.children p).Pairwise (· < ·) := by
  rcases childless_or_holds lodged size p with ⟨_, childless⟩ | ⟨r, s, below, held⟩
  · rw [childless]
    exact List.Pairwise.nil
  · rw [held.children]
    exact increasing_roots below (p + 1)

theorem below_iff_ancestor : t.Below p n ↔ p ∈ t.ancestors n := by
  have up (p c : Nat) (member : c ∈ t.children p) : t.parent? c = some p ∧ p < c :=
    ⟨(mem_children_iff lodged size).mp member, lt_of_mem_children lodged size member⟩
  constructor
  · intro path
    induction path with
    | single member =>
      obtain ⟨parent, lt⟩ := up _ _ member
      exact parent_mem_ancestors parent lt
    | tail _ member above =>
      obtain ⟨parent, lt⟩ := up _ _ member
      exact ancestors_trans above (parent_mem_ancestors parent lt)
  · intro above
    induction n using Nat.strongRecOn with
    | _ n ih =>
      obtain ⟨q, parent, lt, member⟩ := mem_ancestors above
      have child := (mem_children_iff lodged size).mpr parent
      rcases List.mem_cons.mp member with rfl | above
      · exact .single child
      · exact .tail (ih q lt above) child

theorem below_iff (held : t.Holds p r s below) : t.Below p n ↔ p < n ∧ n ≤ p + below.size :=
  (below_iff_ancestor lodged size).trans (lodged.mem_ancestors_iff size held)

theorem exists_below_iff (p : Nat) : ∃ k, ∀ n, t.Below p n ↔ p < n ∧ n ≤ p + k := by
  rcases childless_or_holds lodged size p with ⟨_, childless⟩ | ⟨r, s, below, held⟩
  · refine ⟨0, fun n => ⟨fun path => ?_, by omega⟩⟩
    obtain ⟨c, member, _⟩ := Relation.TransGen.head'_iff.mp path
    rw [childless] at member
    exact absurd member List.not_mem_nil
  · exact ⟨below.size, fun n => below_iff lodged size held⟩

end Planted

/-- The last value of a partial function on a stretch is that at the last place where it has one. -/
theorem getLast?_filterMap_range' {α : Type} (f : Nat → Option α) (i k : Nat) (a : α) :
    ((List.range' i k).filterMap f).getLast? = some a ↔
      ∃ n, i ≤ n ∧ n < i + k ∧ f n = some a ∧ ∀ m, n < m → m < i + k → f m = none := by
  induction k with
  | zero =>
    refine ⟨fun last => by simp at last, ?_⟩
    rintro ⟨n, lower, upper, _⟩
    omega
  | succ k ih =>
    rw [List.range'_1_concat, List.filterMap_append]
    cases last : f (i + k) with
    | none =>
      rw [List.filterMap_cons_none last, List.filterMap_nil, List.append_nil, ih]
      constructor
      · rintro ⟨n, lower, upper, value, later⟩
        refine ⟨n, lower, by omega, value, fun m after inside => ?_⟩
        rcases Nat.lt_or_ge m (i + k) with lt | ge
        · exact later m after lt
        · obtain rfl : m = i + k := by omega
          exact last
      · rintro ⟨n, lower, upper, value, later⟩
        have other : n ≠ i + k := by
          rintro rfl
          rw [last] at value
          cases value
        exact ⟨n, lower, by omega, value, fun m after inside => later m after (by omega)⟩
    | some b =>
      rw [List.filterMap_cons_some last, List.filterMap_nil, List.getLast?_concat]
      constructor
      · rintro ⟨⟩
        exact ⟨i + k, by omega, by omega, last, fun m after inside => by omega⟩
      · rintro ⟨n, lower, upper, value, later⟩
        rcases Nat.lt_or_ge n (i + k) with lt | ge
        · rw [later (i + k) lt (by omega)] at last
          cases last
        · obtain rfl : n = i + k := by omega
          exact last.symm.trans value

theorem stop_iff_last (lodged : F.Lodged t.nodes none 0) (size : t.size = F.size)
    (held : t.Holds p r s below) (i : Nat) :
    t.stop? p = some i ↔
      ∃ n, t.Below p n ∧ t.token? n = some i ∧ ∀ m, t.Below p m → n < m → t.token? m = none := by
  rw [held.stop, ← held.2.filterMap_token, getLast?_filterMap_range']
  simp only [below_iff lodged size held]
  constructor
  · rintro ⟨n, lower, upper, token, later⟩
    exact ⟨n, by omega, token, fun m inside after => later m after (by omega)⟩
  · rintro ⟨n, inside, token, later⟩
    exact ⟨n, by omega, by omega, token, fun m after upper => later m (by omega) after⟩

/-- Any steps build a well-formed tree, with one node for each rule opened and each token added, in
the order of the steps. -/
theorem ofSteps_wellFormed (steps : List TreeStep) :
    (ofSteps steps).WellFormed ∧
      (List.range (ofSteps steps).size).filterMap (ofSteps steps).opening? =
        steps.filterMap TreeStep.opening? := by
  obtain ⟨size, lodged⟩ := ofSteps_lodged steps
  constructor
  · constructor
    case child_iff => exact fun p c => mem_children_iff lodged size
    case parent_lt => exact fun p c => lt_of_mem_children lodged size
    case children_increase => exact increasing_children lodged size
    case below_contiguous => exact exists_below_iff lodged size
    case token_childless =>
      intro n i token
      rcases childless_or_holds lodged size n with ⟨_, childless⟩ | ⟨r, s, below, held⟩
      · exact childless
      · rw [held.token] at token
        cases token
    case stop_iff =>
      intro p r rule i
      rcases childless_or_holds lodged size p with ⟨unruled, _⟩ | ⟨r', s, below, held⟩
      · rw [unruled] at rule
        cases rule
      · exact stop_iff_last lodged size held i
  · rw [List.range_eq_range', size, lodged.filterMap_opening, openings_ofSteps]

end Tree

end SoqlAssist
