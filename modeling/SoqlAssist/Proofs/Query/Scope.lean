import Mathlib.Data.List.Forall2
import SoqlAssist.Proofs.Tree.Walk
import SoqlAssist.Query.Scope

/-!
The scopes that a walk collects. When the query nodes start one after the other, the scopes stand in
the order of these nodes, one for each, with the first token of the node and the span of the node
around it; what a walk adds later to a scope changes neither. So the scopes that cover a position
are those of the query nodes that cover it.
-/
namespace SoqlAssist

namespace Tree

def isQuery (t : Tree) (n : Nat) : Bool :=
  (t.rule? n).any Rule.isQueryScope

def queries (t : Tree) : List Nat :=
  (List.range t.size).filter t.isQuery

/-- The node whose tokens the scope of a query covers. -/
def around (t : Tree) (q : Nat) : Nat :=
  (t.parent? q).getD q

/-- The tokens around a query, the first of them excepted, cover a position. -/
def covers (t : Tree) (i q : Nat) : Bool :=
  (t.start? (t.around q)).any (· < i) && (t.stop? (t.around q)).any (i ≤ ·)

/-- The scope has the place and the span of a query node. -/
structure Backs (t : Tree) (q : Nat) (s : QueryScope) : Prop where
  start : t.start? q = some s.selectToken
  spanStart : t.start? (t.around q) = some s.spanStart
  spanStop : t.stop? (t.around q) = s.spanStop

def Before (t : Tree) (p q : Nat) : Prop :=
  ∃ a b, t.start? p = some a ∧ t.start? q = some b ∧ a < b

end Tree

def Visit.query? : Visit → Option Nat
  | .enter id rule => if rule.isQueryScope then some id else none
  | .leave _ _ => none

namespace QueryScopes

def scopeOf? (t : Tree) (scopes : QueryScopes) (q : Nat) : Option QueryScope :=
  (t.start? q).bind scopes.get?

variable {t : Tree} {tokens : TokenStream} {scopes : QueryScopes} {qs : List Nat} {q id i : Nat}
  {s : QueryScope}

theorem insertSorted_last {l : List QueryScope} (later : ∀ x ∈ l, x.selectToken < s.selectToken) :
    insertSorted s l = l ++ [s] := by
  induction l with
  | nil => rfl
  | cons x l ih =>
    have lt := later x List.mem_cons_self
    rw [insertSorted, if_neg (Nat.lt_asymm lt), if_neg (Nat.ne_of_gt lt),
      ih fun y member => later y (List.mem_cons_of_mem _ member), List.cons_append]

/-- A change that leaves the place and the span of a scope alone. -/
def Modest (f : QueryScope → QueryScope) : Prop :=
  ∀ s, (f s).selectToken = s.selectToken ∧ (f s).spanStart = s.spanStart ∧
    (f s).spanStop = s.spanStop

section Backed

variable (backs : List.Forall₂ t.Backs qs scopes.toList)
include backs

theorem starts_eq : qs.map t.start? = scopes.toList.map fun s => some s.selectToken := by
  rw [← List.forall₂_eq_eq_eq, List.forall₂_map_left_iff, List.forall₂_map_right_iff]
  exact backs.imp fun _ _ backed => backed.start

theorem modifyOwner_backs {f : QueryScope → QueryScope} (modest : Modest f) :
    List.Forall₂ t.Backs qs (modifyOwner t scopes id f).toList := by
  rw [modifyOwner]
  split
  · refine List.forall₂_map_right_iff.mpr (backs.imp fun q s backed => ?_)
    split
    · obtain ⟨start, spanStart, spanStop⟩ := modest s
      exact ⟨start ▸ backed.start, spanStart ▸ backed.spanStart, spanStop ▸ backed.spanStop⟩
    · exact backed
  · exact backs

theorem recordFrom_backs : List.Forall₂ t.Backs qs (recordFrom t tokens scopes id).toList := by
  rw [recordFrom]
  split
  · exact backs
  · exact modifyOwner_backs backs fun _ => ⟨rfl, rfl, rfl⟩

theorem recordColumn_backs :
    List.Forall₂ t.Backs qs (recordColumn t tokens scopes id).toList := by
  rw [recordColumn]
  split
  · exact backs
  · exact modifyOwner_backs backs fun _ => ⟨rfl, rfl, rfl⟩

theorem recordGroups_backs :
    List.Forall₂ t.Backs qs (recordGroups t tokens scopes id).toList := by
  rw [recordGroups]
  split
  · exact backs
  · exact modifyOwner_backs backs fun _ => ⟨rfl, rfl, rfl⟩

theorem register_backs {isSemiJoin : Bool} (known : ∃ s, t.Backs q s)
    (later : ∀ p ∈ qs, t.Before p q) :
    List.Forall₂ t.Backs (qs ++ [q]) (register t scopes q isSemiJoin).toList := by
  obtain ⟨known, start, spanStart, _⟩ := known
  have around : t.start? ((t.parent? q).getD q) = some known.spanStart := spanStart
  have last : ∀ x ∈ scopes.toList, x.selectToken < known.selectToken := by
    intro x member
    have listed : some x.selectToken ∈ qs.map t.start? := by
      rw [starts_eq backs]
      exact List.mem_map_of_mem member
    obtain ⟨p, among, first⟩ := List.mem_map.mp listed
    obtain ⟨a, b, first', second, lt⟩ := later p among
    obtain rfl := Option.some.inj (first.symm.trans first')
    obtain rfl := Option.some.inj (start.symm.trans second)
    exact lt
  rw [register]
  simp only [start, around]
  rw [insert, insertSorted_last]
  · exact List.rel_append backs (.cons ⟨start, spanStart, rfl⟩ .nil)
  · exact last

/-- One moment of the walk adds the scope of the query that it enters, and no other. -/
theorem observe_backs (v : Visit) (known : ∀ q ∈ v.query?, ∃ s, t.Backs q s)
    (later : ∀ q ∈ v.query?, ∀ p ∈ qs, t.Before p q) :
    List.Forall₂ t.Backs (qs ++ v.query?.toList) (observe t tokens scopes v).toList := by
  have kept {scopes' : QueryScopes} (same : v.query? = none)
      (backs' : List.Forall₂ t.Backs qs scopes'.toList) :
      List.Forall₂ t.Backs (qs ++ v.query?.toList) scopes'.toList := by
    rwa [same, Option.toList_none, List.append_nil]
  rw [observe.eq_def]
  split
  · exact register_backs backs (known _ rfl) (later _ rfl)
  · exact register_backs backs (known _ rfl) (later _ rfl)
  · exact kept rfl (recordColumn_backs backs)
  · exact kept rfl (recordGroups_backs backs)
  · exact kept rfl (recordFrom_backs backs)
  · refine kept ?_ backs
    cases v with
    | leave id rule => rfl
    | enter id rule => cases rule <;> simp_all [Visit.query?, Rule.isQueryScope]

theorem foldl_observe_backs (vs : List Visit)
    (known : ∀ q ∈ vs.filterMap Visit.query?, ∃ s, t.Backs q s)
    (ordered : (qs ++ vs.filterMap Visit.query?).Pairwise t.Before) :
    List.Forall₂ t.Backs (qs ++ vs.filterMap Visit.query?)
      (vs.foldl (observe t tokens) scopes).toList := by
  induction vs generalizing qs scopes with
  | nil => rwa [List.filterMap_nil, List.append_nil]
  | cons v vs ih =>
    have split : (v :: vs).filterMap Visit.query? =
        v.query?.toList ++ vs.filterMap Visit.query? := by
      cases entered : v.query? <;> simp [entered]
    rw [split] at known
    rw [split, ← List.append_assoc] at ordered ⊢
    refine ih (observe_backs backs v ?_ ?_) ?_ ordered
    · intro q member
      exact known q (List.mem_append_left _ (Option.mem_toList.mpr member))
    · intro q member p listed
      exact (List.pairwise_append.mp (List.pairwise_append.mp ordered).1).2.2 p listed q
        (Option.mem_toList.mpr member)
    · intro q member
      exact known q (List.mem_append_right _ member)

theorem pairwise_selectToken (ordered : qs.Pairwise t.Before) :
    scopes.toList.Pairwise fun x y => x.selectToken < y.selectToken := by
  have starts : (qs.map t.start?).Pairwise fun a b => ∃ x y, a = some x ∧ b = some y ∧ x < y := by
    rw [List.pairwise_map]
    exact ordered
  rw [starts_eq backs, List.pairwise_map] at starts
  refine starts.imp ?_
  rintro x y ⟨a, b, first, second, lt⟩
  obtain rfl := Option.some.inj first
  obtain rfl := Option.some.inj second
  exact lt

end Backed

theorem get?_of_mem (ordered : scopes.toList.Pairwise fun x y => x.selectToken < y.selectToken)
    (member : s ∈ scopes.toList) : scopes.get? s.selectToken = some s := by
  rw [get?]
  generalize scopes.toList = l at ordered member
  induction l with
  | nil => exact absurd member List.not_mem_nil
  | cons x l ih =>
    obtain ⟨first, ordered⟩ := List.pairwise_cons.mp ordered
    rcases List.mem_cons.mp member with rfl | member
    · exact List.find?_cons_of_pos (by simp)
    · rw [List.find?_cons_of_neg (by simpa using Nat.ne_of_lt (first s member)),
        ih ordered member]

/-- Each scope is found by the first token of its query node. -/
theorem scopeOf_backs (backs : List.Forall₂ t.Backs qs scopes.toList)
    (ordered : qs.Pairwise t.Before) :
    List.Forall₂ (fun q s => scopeOf? t scopes q = some s ∧ t.Backs q s) qs scopes.toList := by
  refine List.forall₂_iff_zip.mpr ⟨backs.length_eq, fun {q s} pair => ?_⟩
  have backed := List.forall₂_zip backs pair
  refine ⟨?_, backed⟩
  rw [scopeOf?, backed.start]
  exact get?_of_mem (pairwise_selectToken backs ordered) (List.of_mem_zip pair).2

theorem exists_scopeOf (backs : List.Forall₂ t.Backs qs scopes.toList)
    (ordered : qs.Pairwise t.Before) (member : q ∈ qs) :
    ∃ s, scopeOf? t scopes q = some s ∧ t.Backs q s := by
  have found := scopeOf_backs backs ordered
  clear backs ordered
  generalize scopes.toList = l at found
  induction found with
  | nil => exact absurd member List.not_mem_nil
  | cons first _ ih =>
    rcases List.mem_cons.mp member with rfl | later
    · exact ⟨_, first⟩
    · exact ih later

theorem contains_eq (backed : t.Backs q s) : s.contains i = t.covers i q := by
  rw [Tree.covers, backed.spanStart, backed.spanStop]
  rfl

/-- The scopes that cover a position are those of the query nodes that cover it. -/
theorem scopesAt_eq (backs : List.Forall₂ t.Backs qs scopes.toList)
    (ordered : qs.Pairwise t.Before) :
    (scopes.scopesAt i).map some = (qs.filter (t.covers i)).reverse.map (scopeOf? t scopes) := by
  have filtered := List.rel_filter (p := t.covers i) (q := fun s => s.contains i)
    (fun {q s} both => Bool.eq_iff_iff.mp (contains_eq both.2).symm) (scopeOf_backs backs ordered)
  have listed := List.forall₂_reverse_iff.mpr filtered
  symm
  rw [scopesAt, ← List.forall₂_eq_eq_eq, List.forall₂_map_left_iff, List.forall₂_map_right_iff]
  exact listed.imp fun _ _ both => both.1

/-- A walk enters the query nodes in the order of the array. -/
theorem walk_queries {r : Rule} {start : Nat} {below : Forest}
    (size : t.size = (Forest.node r start below .nil).size)
    (lodged : (Forest.node r start below .nil).Lodged t.nodes none 0) :
    t.walk.filterMap Visit.query? = t.queries := by
  have entered : Visit.query? =
      fun v => v.entered?.bind fun (n, r) => if r.isQueryScope then some n else none := by
    funext v
    cases v <;> rfl
  rw [entered, ← List.filterMap_filterMap, ← Tree.ruleNodes, Tree.ruleNodes_eq size lodged,
    List.filterMap_filterMap, Tree.queries, ← List.filterMap_eq_filter]
  refine List.filterMap_congr fun n _ => ?_
  cases rule : t.rule? n <;> simp [Tree.isQuery, rule, Option.guard]

/-- The scopes of a tree are those of its query nodes, in their order. -/
theorem ofTree_backs {r : Rule} {start : Nat} {below : Forest}
    (size : t.size = (Forest.node r start below .nil).size)
    (lodged : (Forest.node r start below .nil).Lodged t.nodes none 0)
    (known : ∀ q ∈ t.queries, ∃ s, t.Backs q s) (ordered : t.queries.Pairwise t.Before) :
    List.Forall₂ t.Backs t.queries (ofTree t tokens).toList := by
  rw [← walk_queries size lodged] at known ordered ⊢
  exact foldl_observe_backs List.Forall₂.nil t.walk known ordered

end QueryScopes

end SoqlAssist
