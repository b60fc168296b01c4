import SoqlAssist.Proofs.Query.Scope

/-!
What a walk writes into the scope of one query. The scopes are a table under the first tokens of the
queries, so what happens to one entry can be followed alone: it is made when its query is entered,
and each moment at a node whose nearest query is this one adds a column, sets the groups or sets the
source. Nothing else touches it.
-/
namespace SoqlAssist

def Visit.node : Visit → Nat
  | .enter id _ | .leave id _ => id

namespace Forest

theorem node_of_mem_visits {F : Forest} {i : Nat} {v : Visit} (member : v ∈ F.visits i) :
    i ≤ v.node ∧ v.node < i + F.size := by
  induction F generalizing i with
  | nil => exact absurd member List.not_mem_nil
  | leaf p next ih =>
    have bounds := ih member
    rw [size]
    omega
  | node r s below next ihBelow ihNext =>
    simp only [visits, List.mem_cons, List.mem_append] at member
    rw [size]
    rcases member with rfl | inside | rfl | after
    · simp only [Visit.node]
      omega
    · have bounds := ihBelow inside
      omega
    · simp only [Visit.node]
      omega
    · have bounds := ihNext after
      omega

/-- When a node is entered, all moments before were at nodes that come before it in the array. -/
theorem pairwise_visits (F : Forest) (i : Nat) :
    (F.visits i).Pairwise fun v w => ∀ x ∈ w.entered?, v.node < x.1 := by
  induction F generalizing i with
  | nil => exact List.Pairwise.nil
  | leaf p next ih => exact ih (i + 1)
  | node r s below next ihBelow ihNext =>
    have later {j : Nat} {G : Forest} {v : Visit} (lt : i < j) (member : v ∈ G.visits j) :
        ∀ x ∈ v.entered?, i < x.1 := by
      have bounds := node_of_mem_visits member
      intro x entered
      cases v with
      | enter id rule =>
        obtain rfl := Option.some.inj entered
        simp only [Visit.node] at bounds
        exact Nat.lt_of_lt_of_le lt bounds.1
      | leave id rule => exact absurd entered (by simp [Visit.entered?])
    rw [visits, List.pairwise_cons, List.pairwise_append, List.pairwise_cons]
    refine ⟨?_, ihBelow (i + 1), ⟨?_, ihNext _⟩, ?_⟩
    · intro v member
      rcases List.mem_append.mp member with inside | outside
      · exact later (Nat.lt_succ_self i) inside
      · rcases List.mem_cons.mp outside with rfl | after
        · simp [Visit.entered?]
        · exact later (by omega) after
    · intro v member
      exact later (by omega) member
    · intro v inside w outside x entered
      have bounds := node_of_mem_visits inside
      rcases List.mem_cons.mp outside with rfl | after
      · exact absurd entered (by simp [Visit.entered?])
      · have bounds' := node_of_mem_visits after
        cases w with
        | enter id rule =>
          obtain rfl := Option.some.inj entered
          simp only [Visit.node] at bounds'
          show v.node < id
          omega
        | leave id rule => exact absurd entered (by simp [Visit.entered?])

theorem leave_mem_visits {F : Forest} {i n : Nat} {r : Rule} :
    .leave n r ∈ F.visits i ↔ .enter n r ∈ F.visits i := by
  induction F generalizing i with
  | nil => simp [visits]
  | leaf p next ih => exact ih
  | node r s below next ihBelow ihNext =>
    simp only [visits, List.mem_cons, List.mem_append, ihBelow, ihNext, Visit.enter.injEq,
      Visit.leave.injEq, reduceCtorEq, false_or, or_left_comm]

end Forest

namespace QueryScopes

section Table

variable {scopes : QueryScopes}

theorem get?_insert (s : QueryScope) (k : Nat) :
    (scopes.insert s).get? k = if s.selectToken = k then some s else scopes.get? k := by
  simp only [insert, get?]
  generalize scopes.toList = l
  have head (x : QueryScope) (l : List QueryScope) : (x :: l).find? (·.selectToken == k) =
      if x.selectToken = k then some x else l.find? (·.selectToken == k) := by
    by_cases same : x.selectToken = k
    · rw [List.find?_cons_of_pos (by simp [same]), if_pos same]
    · rw [List.find?_cons_of_neg (by simp [same]), if_neg same]
  induction l with
  | nil => exact head s []
  | cons x l ih =>
    rw [insertSorted]
    by_cases before : s.selectToken < x.selectToken
    · rw [if_pos before, head s]
    by_cases equal : s.selectToken = x.selectToken
    · rw [if_neg before, if_pos equal, head s, head x, ← equal]
      split <;> rfl
    · rw [if_neg before, if_neg equal, head x, head x, ih]
      by_cases found : x.selectToken = k
      · rw [if_pos found, if_neg (by omega), if_pos found]
      · rw [if_neg found, if_neg found]

theorem get?_modify {f : QueryScope → QueryScope} (modest : Modest f) (j k : Nat) :
    (scopes.modify j f).get? k = if j = k then (scopes.get? k).map f else scopes.get? k := by
  rw [modify, get?, get?, List.find?_map]
  have key (s : QueryScope) :
      ((if s.selectToken = j then f s else s).selectToken == k) = (s.selectToken == k) := by
    split
    · rw [(modest s).1]
    · rfl
  have test : ((fun s : QueryScope => s.selectToken == k) ∘
      fun s => if s.selectToken = j then f s else s) = fun s => s.selectToken == k := by
    funext s
    exact key s
  rw [test]
  cases found : scopes.toList.find? (·.selectToken == k) with
  | none => simp
  | some s =>
    have same : s.selectToken = k := by simpa using List.find?_some found
    by_cases equal : j = k
    · simp [equal, same]
    · simp [equal, same, Ne.symm equal]

end Table

section Notes

variable (t : Tree) (tokens : TokenStream) (q : Nat)

/-- The column that a moment adds to the scope of `q`. -/
def columnNoted? : Visit → Option String
  | .enter id .selectExpr =>
    if t.enclosing? id Rule.isQueryScope = some q then
      (t.child? id 0).bind (singleName? t tokens)
    else none
  | _ => none

def groupsNoted? : Visit → Option (List String)
  | .enter id .groupByExprs =>
    if t.enclosing? id Rule.isQueryScope = some q then
      match (t.childrenFor id .field).filterMap (singleName? t tokens) with
      | [] => none
      | names => some names
    else none
  | _ => none

/-- The place and the name of the object that a moment sets in the scope of `q`. -/
def sourceNoted? : Visit → Option (Option Nat × Option String)
  | .leave id .fromExprs =>
    if t.enclosing? id Rule.isQueryScope = some q then
      (t.child? id 0).map fun object =>
        ((t.parent? id).bind t.start?,
          ((t.child? object 0).bind (t.child? · 0)).bind (nameAt? t tokens))
    else none
  | _ => none

def noted (s : QueryScope) (v : Visit) : QueryScope :=
  { s with
    fromToken := ((sourceNoted? t tokens q v).map (·.1)).getD s.fromToken
    objectName := ((sourceNoted? t tokens q v).map (·.2)).getD s.objectName
    selectedFields := s.selectedFields ++ (columnNoted? t tokens q v).toList
    groupByFields := (groupsNoted? t tokens q v).getD s.groupByFields }

def blank : QueryScope :=
  ⟨(t.start? q).getD 0, none, none, [], [], t.rule? q == some .semiJoin,
    (t.start? (t.around q)).getD 0, t.stop? (t.around q)⟩

end Notes

variable {t : Tree} {tokens : TokenStream} {scopes : QueryScopes} {q k : Nat}

section Fold

theorem selectedFields_foldl (vs : List Visit) (s : QueryScope) :
    (vs.foldl (noted t tokens q) s).selectedFields =
      s.selectedFields ++ vs.filterMap (columnNoted? t tokens q) := by
  induction vs generalizing s with
  | nil => simp
  | cons v vs ih =>
    rw [List.foldl_cons, ih]
    cases column : columnNoted? t tokens q v <;> simp [noted, column]

theorem groupByFields_foldl (vs : List Visit) (s : QueryScope) :
    (vs.foldl (noted t tokens q) s).groupByFields =
      (vs.filterMap (groupsNoted? t tokens q)).getLast?.getD s.groupByFields := by
  induction vs generalizing s with
  | nil => rfl
  | cons v vs ih =>
    rw [List.foldl_cons, ih]
    cases groups : groupsNoted? t tokens q v with
    | none => simp [noted, groups]
    | some names =>
      rw [List.filterMap_cons_some groups, List.getLast?_cons, noted, groups]
      rfl

theorem source_foldl (vs : List Visit) (s : QueryScope) :
    ((vs.foldl (noted t tokens q) s).fromToken, (vs.foldl (noted t tokens q) s).objectName) =
      (vs.filterMap (sourceNoted? t tokens q)).getLast?.getD (s.fromToken, s.objectName) := by
  induction vs generalizing s with
  | nil => rfl
  | cons v vs ih =>
    rw [List.foldl_cons, ih]
    cases source : sourceNoted? t tokens q v with
    | none => simp [noted, source]
    | some found =>
      rw [List.filterMap_cons_some source, List.getLast?_cons, noted, source]
      rfl

theorem isSemiJoin_foldl (vs : List Visit) (s : QueryScope) :
    (vs.foldl (noted t tokens q) s).isSemiJoin = s.isSemiJoin := by
  induction vs generalizing s with
  | nil => rfl
  | cons v vs ih =>
    rw [List.foldl_cons, ih]
    rfl

end Fold

theorem noted_eq_self {s : QueryScope} {v : Visit} (column : columnNoted? t tokens q v = none)
    (groups : groupsNoted? t tokens q v = none) (source : sourceNoted? t tokens q v = none) :
    noted t tokens q s v = s := by
  simp [noted, column, groups, source]

/-- A moment at a node of another query leaves the scope alone. -/
theorem noted_of_other {s : QueryScope} {v : Visit}
    (other : t.enclosing? v.node Rule.isQueryScope ≠ some q) : noted t tokens q s v = s := by
  apply noted_eq_self
  · rw [columnNoted?.eq_def]
    split
    · exact if_neg other
    · rfl
  · rw [groupsNoted?.eq_def]
    split
    · exact if_neg other
    · rfl
  · rw [sourceNoted?.eq_def]
    split
    · exact if_neg other
    · rfl

theorem noted_of_query {s : QueryScope} {v : Visit} {p : Nat} (entered : v.query? = some p) :
    noted t tokens q s v = s := by
  cases v with
  | leave id rule => exact absurd entered (by simp [Visit.query?])
  | enter id rule =>
    cases rule <;> simp [Visit.query?, Rule.isQueryScope] at entered
    all_goals exact noted_eq_self rfl rfl rfl

section Entry

variable (start : t.start? q = some k)
  (apart : ∀ p, t.isQuery p = true → t.start? p = some k → p = q)
include start apart

/-- A change of the nearest query's scope reaches the entry of `q` if that query is `q`. -/
theorem get?_modifyOwner {f : QueryScope → QueryScope} (modest : Modest f) (id : Nat) :
    (modifyOwner t scopes id f).get? k =
      if t.enclosing? id Rule.isQueryScope = some q then (scopes.get? k).map f
      else scopes.get? k := by
  rw [modifyOwner]
  cases nearest : t.enclosing? id Rule.isQueryScope with
  | none => simp
  | some p =>
    have query : t.isQuery p = true := List.find?_some nearest
    rw [Option.bind_some]
    cases place : t.start? p with
    | none =>
      have other : p ≠ q := by
        rintro rfl
        exact absurd (place.symm.trans start) (by simp)
      simp [other]
    | some j =>
      have same : j = k ↔ p = q := by
        constructor
        · rintro rfl
          exact apart p query place
        · rintro rfl
          exact Option.some.inj (place.symm.trans start)
      simp only [get?_modify modest, Option.some.injEq, same]

theorem get?_observe {v : Visit} (inside : v.query? = none) :
    (observe t tokens scopes v).get? k = (scopes.get? k).map (noted t tokens q · v) := by
  have unchanged (same : ∀ s, noted t tokens q s v = s) :
      (scopes.get? k).map (noted t tokens q · v) = scopes.get? k := by
    cases scopes.get? k with
    | none => rfl
    | some s => rw [Option.map_some, same]
  have reached {f : QueryScope → QueryScope} (modest : Modest f)
      (writes : t.enclosing? v.node Rule.isQueryScope = some q → ∀ s, f s = noted t tokens q s v) :
      (modifyOwner t scopes v.node f).get? k =
        (scopes.get? k).map (noted t tokens q · v) := by
    rw [get?_modifyOwner start apart modest]
    split
    · rename_i own
      congr 1
      funext s
      exact writes own s
    · rename_i other
      exact (unchanged fun s => noted_of_other other).symm
  rw [observe.eq_def]
  split
  · exact absurd inside (by simp [Visit.query?, Rule.isQueryScope])
  · exact absurd inside (by simp [Visit.query?, Rule.isQueryScope])
  · rename_i id
    rw [recordColumn]
    split
    · rename_i none
      exact (unchanged fun s => noted_eq_self (by simp [columnNoted?, none]) rfl rfl).symm
    · rename_i name found
      refine reached (fun _ => ⟨rfl, rfl, rfl⟩) fun own s => ?_
      simp only [Visit.node] at own
      simp [noted, columnNoted?, groupsNoted?, sourceNoted?, own, found]
  · rename_i id
    rw [recordGroups]
    split
    · rename_i none
      exact (unchanged fun s => noted_eq_self rfl (by simp [groupsNoted?, none]) rfl).symm
    · rename_i names filled
      refine reached (fun _ => ⟨rfl, rfl, rfl⟩) fun own s => ?_
      simp only [Visit.node] at own
      simp [noted, columnNoted?, groupsNoted?, sourceNoted?, own]
  · rename_i id
    rw [recordFrom]
    split
    · rename_i none
      exact (unchanged fun s => noted_eq_self rfl rfl (by simp [sourceNoted?, none])).symm
    · rename_i object found
      refine reached (fun _ => ⟨rfl, rfl, rfl⟩) fun own s => ?_
      simp only [Visit.node] at own
      simp [noted, columnNoted?, groupsNoted?, sourceNoted?, own, found]
  · rename_i _ _ column groups source
    refine (unchanged fun s => noted_eq_self ?_ ?_ ?_).symm
    · rw [columnNoted?.eq_def]
      split
      · exact absurd rfl (column _)
      · rfl
    · rw [groupsNoted?.eq_def]
      split
      · exact absurd rfl (groups _)
      · rfl
    · rw [sourceNoted?.eq_def]
      split
      · exact absurd rfl (source _)
      · rfl

/-- To enter another query leaves the entry of `q` alone. -/
theorem get?_observe_other {v : Visit} {p : Nat} (entered : v.query? = some p)
    (query : t.isQuery p = true) (other : p ≠ q) :
    (observe t tokens scopes v).get? k = scopes.get? k := by
  have registered (isSemiJoin : Bool) : (register t scopes p isSemiJoin).get? k = scopes.get? k := by
    rw [register.eq_def]
    simp only
    split
    · rename_i place _
      rw [get?_insert, if_neg]
      rintro rfl
      exact other (apart p query place)
    · rfl
  cases v with
  | leave id rule => exact absurd entered (by simp [Visit.query?])
  | enter id rule =>
    cases rule <;> simp [Visit.query?, Rule.isQueryScope] at entered
    all_goals
      subst entered
      exact registered _

theorem get?_foldl_observe {vs : List Visit}
    (others : ∀ v ∈ vs, ∀ p ∈ v.query?, t.isQuery p = true ∧ p ≠ q) :
    (vs.foldl (observe t tokens) scopes).get? k =
      (scopes.get? k).map fun s => vs.foldl (noted t tokens q) s := by
  induction vs generalizing scopes with
  | nil => exact Option.map_id'.symm
  | cons v vs ih =>
    have rest : ∀ v ∈ vs, ∀ p ∈ v.query?, t.isQuery p = true ∧ p ≠ q :=
      fun v member => others v (List.mem_cons_of_mem _ member)
    have step : (observe t tokens scopes v).get? k =
        (scopes.get? k).map (noted t tokens q · v) := by
      cases entered : v.query? with
      | none => exact get?_observe start apart entered
      | some p =>
        obtain ⟨query, other⟩ := others v List.mem_cons_self p entered
        rw [get?_observe_other start apart entered query other]
        cases scopes.get? k with
        | none => rfl
        | some s => rw [Option.map_some, noted_of_query entered]
    rw [List.foldl_cons, ih rest, step, Option.map_map]
    rfl

omit apart in
theorem get?_observe_self {r : Rule} {a : Nat} (rule : t.rule? q = some r)
    (own : r.isQueryScope = true) (around : t.start? (t.around q) = some a) :
    (observe t tokens scopes (.enter q r)).get? k = some (blank t q) := by
  have registered (isSemiJoin : Bool) (same : isSemiJoin = (t.rule? q == some .semiJoin)) :
      (register t scopes q isSemiJoin).get? k = some (blank t q) := by
    have place : t.start? ((t.parent? q).getD q) = some a := around
    simp only [register, start, place]
    rw [get?_insert, if_pos rfl, blank, start, around, same]
    rfl
  cases r with
  | innerQuery => exact registered false (by rw [rule]; rfl)
  | semiJoin => exact registered true (by rw [rule]; rfl)
  | _ => exact absurd own (by simp [Rule.isQueryScope])

/-- The entry of `q` once its query has been entered and all of a walk is done. -/
theorem get?_foldl_walk {before after : List Visit} {r : Rule} {a : Nat}
    (rule : t.rule? q = some r) (own : r.isQueryScope = true)
    (around : t.start? (t.around q) = some a) (earlier : ∀ v ∈ before, v.node < q)
    (others : ∀ v ∈ after, ∀ p ∈ v.query?, t.isQuery p = true ∧ p ≠ q) :
    ((before ++ .enter q r :: after).foldl (observe t tokens) scopes).get? k =
      some ((before ++ .enter q r :: after).foldl (noted t tokens q) (blank t q)) := by
  have idle : before.foldl (noted t tokens q) (blank t q) = blank t q := by
    clear others
    induction before with
    | nil => rfl
    | cons v before ih =>
      have other : t.enclosing? v.node Rule.isQueryScope ≠ some q := by
        intro nearest
        have above := List.mem_of_find?_eq_some nearest
        have lt := earlier v List.mem_cons_self
        rcases List.mem_cons.mp above with same | above
        · omega
        · exact absurd (Tree.lt_of_mem_ancestors above) (by omega)
      rw [List.foldl_cons, noted_of_other other]
      exact ih fun v member => earlier v (List.mem_cons_of_mem _ member)
  have entered : (Visit.enter q r).query? = some q := if_pos own
  rw [List.foldl_append, List.foldl_cons, get?_foldl_observe start apart others,
    get?_observe_self start rule own around, List.foldl_append, List.foldl_cons, idle,
    noted_of_query entered]
  rfl

end Entry

end QueryScopes

end SoqlAssist
