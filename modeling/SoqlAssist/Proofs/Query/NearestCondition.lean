import SoqlAssist.Proofs.Query.Path
import SoqlAssist.Proofs.Query.WhereField
import SoqlAssist.Proofs.Tree.Traversal

/-!
The condition nearest to a position. Conditions start one after the other in the order in which a
walk enters them, also empty ones, those in parentheses and those of a query inside; so the nearest
of those that start at or before a position is the last of them. What is read from it is the path
of its field, from the object of the innermost query on.
-/
namespace SoqlAssist

namespace Tree

def conditions (t : Tree) : List Nat :=
  (t.ruleNodes.filter (·.2 == .whereExpr)).map (·.1)

def lastCondition? (t : Tree) (i : Nat) : Option Nat :=
  (t.conditions.filter fun c => (t.start? c).any (· ≤ i)).getLast?

namespace Regular

variable {t : Tree} {kind : Nat → TokenKind} {F : Forest} {limit c i : Nat}
  (regular : t.Regular kind F limit)
include regular

theorem mem_conditions : c ∈ t.conditions ↔ t.rule? c = some .whereExpr := by
  rw [conditions, List.mem_map]
  constructor
  · rintro ⟨⟨n, r⟩, member, rfl⟩
    obtain ⟨listed, same⟩ := List.mem_filter.mp member
    obtain rfl := beq_iff_eq.mp same
    exact (regular.mem_ruleNodes n _).mp listed
  · intro rule
    refine ⟨(c, .whereExpr), ?_, rfl⟩
    exact List.mem_filter.mpr ⟨(regular.mem_ruleNodes c _).mpr rule, rfl⟩

theorem increasing_conditions : t.conditions.Pairwise (· < ·) := by
  obtain ⟨start, below, rfl⟩ := regular.root
  have nodes : t.ruleNodes = t.numbered t.size := ruleNodes_eq regular.size regular.lodged
  have increasing := t.increasing_numbered t.size
  rw [← nodes] at increasing
  exact increasing.sublist (List.filter_sublist.map _)

theorem mem_before : (c ∈ t.conditions.filter fun c => (t.start? c).any (· ≤ i)) ↔
    t.rule? c = some .whereExpr ∧ ∃ x, t.start? c = some x ∧ x ≤ i := by
  rw [List.mem_filter, regular.mem_conditions, Option.any_eq_true]
  simp only [decide_eq_true_eq]

/-- No two conditions start at one token. -/
theorem condition_inj {c d x : Nat} (first : t.rule? c = some .whereExpr)
    (second : t.rule? d = some .whereExpr) (start : t.start? c = some x)
    (start' : t.start? d = some x) : c = d := by
  rcases Nat.lt_trichotomy c d with lt | same | lt
  · exact absurd (regular.condition_start_lt first second lt start start') (Nat.lt_irrefl x)
  · exact same
  · exact absurd (regular.condition_start_lt second first lt start' start) (Nat.lt_irrefl x)

/-- Conditions start one after the other in the order in which they are entered. -/
theorem conditions_start : t.conditions.Pairwise fun c d =>
    ∃ x y, t.start? c = some x ∧ t.start? d = some y ∧ x < y := by
  refine regular.increasing_conditions.imp_of_mem ?_
  intro c d first second lt
  have rule := regular.mem_conditions.mp first
  have rule' := regular.mem_conditions.mp second
  obtain ⟨x, _, held, _⟩ := regular.holds rule
  obtain ⟨y, _, held', _⟩ := regular.holds rule'
  exact ⟨x, y, held.start, held'.start,
    regular.condition_start_lt rule rule' lt held.start held'.start⟩

/-- The last of the conditions that start at or before a position starts there or before, and none
of these starts later. -/
theorem lastCondition_spec (found : t.lastCondition? i = some c) :
    t.rule? c = some .whereExpr ∧ ∃ x, t.start? c = some x ∧ x ≤ i ∧
      ∀ d y, t.rule? d = some .whereExpr → t.start? d = some y → y ≤ i → y ≤ x := by
  obtain ⟨front, split⟩ := List.getLast?_eq_some_iff.mp found
  have sorted := regular.increasing_conditions.sublist
    (List.filter_sublist (p := fun c => (t.start? c).any (· ≤ i)))
  have last : c ∈ t.conditions.filter fun c => (t.start? c).any (· ≤ i) := by simp [split]
  obtain ⟨rule, x, start, le⟩ := regular.mem_before.mp last
  refine ⟨rule, x, start, le, ?_⟩
  intro d y rule' start' le'
  have member := regular.mem_before.mpr ⟨rule', y, start', le'⟩
  rw [split] at sorted member
  rcases List.mem_append.mp member with earlier | same
  · have lt := (List.pairwise_append.mp sorted).2.2 d earlier c List.mem_cons_self
    exact Nat.le_of_lt (regular.condition_start_lt rule' rule lt start' start)
  · obtain rfl := List.mem_singleton.mp same
    exact Nat.le_of_eq (Option.some.inj (start'.symm.trans start))

/-- The search for the nearest condition finds the last one. -/
theorem nearestCondition_eq_last (i : Nat) :
    Analysis.nearestCondition? t i = t.lastCondition? i := by
  -- Each is the condition that starts latest at or before the position, and only one starts there.
  cases last : t.lastCondition? i with
  | none =>
    have none_before := List.getLast?_eq_none_iff.mp last
    rw [Option.eq_none_iff_forall_ne_some]
    intro c found
    obtain ⟨rule, x, start, le, _⟩ := Analysis.nearestCondition_spec regular.mem_ruleNodes found
    have member := regular.mem_before.mpr ⟨rule, x, start, le⟩
    rw [none_before] at member
    exact absurd member List.not_mem_nil
  | some c =>
    obtain ⟨rule, x, start, le, latest⟩ := regular.lastCondition_spec last
    cases found : Analysis.nearestCondition? t i with
    | none =>
      have listed := (Analysis.mem_conditionsBefore regular.mem_ruleNodes).mpr
        ⟨rule, x, start, le, rfl⟩
      rw [Analysis.nearestCondition_eq, Option.map_eq_none_iff, List.argmin_eq_none] at found
      rw [found] at listed
      exact absurd listed List.not_mem_nil
    | some d =>
      obtain ⟨rule', y, start', le', latest'⟩ :=
        Analysis.nearestCondition_spec regular.mem_ruleNodes found
      obtain rfl : x = y :=
        Nat.le_antisymm (latest' c x rule start le) (latest d y rule' start' le')
      exact congrArg some (regular.condition_inj rule' rule start' start)

end Regular

end Tree

/-- In a query with a known object there is no field exactly if there is no nearest condition or it
has nothing below it. -/
theorem Analysis.whereField_eq_none {a : Analysis} {i : Nat} {s : QueryScope} {object : String}
    (innermost : a.scopes.innermostAt? i = some s) (named : s.objectName = some object) :
    a.whereField? i = none ↔ nearestCondition? a.parsed.tree i = none ∨
      ∃ c, nearestCondition? a.parsed.tree i = some c ∧ a.parsed.tree.children c = [] := by
  simp only [whereField?, innermost, named, Option.bind_eq_bind, Option.bind_some]
  cases nearestCondition? a.parsed.tree i with
  | none => simp
  | some c =>
    rw [Option.bind_some, Tree.child?, ← List.head?_eq_getElem?]
    cases below : a.parsed.tree.children c <;> simp [below]

/-- The conditions of a text start one after the other in the order of a walk, so the search for the
nearest one finds the last that starts at or before a position. In a query with a known object the
field is read from that condition, and there is none exactly if the condition is missing or empty. A
path of names `x₁. … .xₙ` is read from the second name on if there are two and the first is the
object, and else whole. -/
theorem whereField_of_last (text : String) :
    let t := (parse text).tree
    let a := Analysis.ofParsed (parse text)
    (∀ c, c ∈ t.conditions ↔ t.rule? c = some .whereExpr) ∧
    (t.conditions.Pairwise fun c d => ∃ x y, t.start? c = some x ∧ t.start? d = some y ∧ x < y) ∧
    (∀ i, Analysis.nearestCondition? t i = t.lastCondition? i) ∧
    ∀ i s object, a.scopes.innermostAt? i = some s → s.objectName = some object →
      (a.whereField? i = none ↔
        t.lastCondition? i = none ∨ ∃ c, t.lastCondition? i = some c ∧ t.children c = []) ∧
      ∀ r, a.whereField? i = some r →
        r.objectName = object ∧ ∃ c, t.lastCondition? i = some c ∧ a.ReadFrom c r ∧
          ∀ f, t.child? c 0 = some f → t.rule? f = some .field →
            (∃ names, t.Dotted (tokenize text) (t.children f) names) ∧
            ∀ names, t.Dotted (tokenize text) (t.children f) names →
              r.fieldName = ".".intercalate (Analysis.relativeNames object names) := by
  intro t a
  obtain ⟨F, regular⟩ := parse_regular (tokenize text)
  obtain ⟨G, planted, pathed⟩ := parse_pathed text
  have last (i : Nat) : Analysis.nearestCondition? t i = t.lastCondition? i :=
    regular.nearestCondition_eq_last i
  refine ⟨fun c => regular.mem_conditions, regular.conditions_start, last, ?_⟩
  intro i s object innermost named
  constructor
  · rw [← last i]
    exact Analysis.whereField_eq_none innermost named
  · intro r found
    obtain ⟨c, s', nearest, read, innermost', named'⟩ := Analysis.whereField_eq_some found
    obtain rfl := Option.some.inj (innermost.symm.trans innermost')
    obtain rfl := Option.some.inj (named.symm.trans named')
    refine ⟨rfl, c, (last i).symm.trans nearest, read, ?_⟩
    intro f child path
    refine ⟨dotted_children planted pathed path, ?_⟩
    intro names dotted
    obtain ⟨f', child', fieldName, _⟩ := read
    obtain rfl := Option.some.inj (child.symm.trans child')
    rw [fieldName]
    exact withoutQualifier_dotted planted pathed r.objectName path dotted

/-- A condition in parentheses with the object before its field, and one that is missing. -/
def qualifiedField : String := "SELECT x FROM A WHERE (A.b.c LIKE 'y' OR"

/-- On the operator the field is read without the object; behind the last word there is none. -/
theorem whereField_of_last_qualifiedField :
    let t := (parse qualifiedField).tree
    let a := Analysis.ofParsed (parse qualifiedField)
    (∃ s, a.scopes.innermostAt? 17 = some s ∧ s.objectName = some "A") ∧
      t.Dotted (tokenize qualifiedField) (t.children 21) ["A", "b", "c"] ∧
      (∃ r, a.whereField? 17 = some r ∧ r.objectName = "A" ∧ r.fieldName = "b.c") ∧
      (∃ s, a.scopes.innermostAt? 22 = some s ∧ s.objectName = some "A") ∧
      t.lastCondition? 22 = some 35 ∧ a.whereField? 22 = none := by
  have values : (let a := Analysis.ofParsed (parse qualifiedField)
      let t := a.parsed.tree
      ((a.scopes.innermostAt? 17).map (·.objectName), (a.scopes.innermostAt? 22).map (·.objectName),
        (a.whereField? 17).isSome, t.lastCondition? 17, t.child? 20 0, t.rule? 21, t.children 21,
        t.lastCondition? 22, t.children 35)) =
      (some (some "A"), some (some "A"), true, some 20, some 21, some .field,
        [22, 24, 25, 27, 28], some 35, []) := by cbv
  have parts : (let p := parse qualifiedField
      let t := p.tree
      (t.rule? 22, t.rule? 25, t.rule? 28, t.text 22 p.tokens, t.text 25 p.tokens,
        t.text 28 p.tokens, t.token? 24, t.token? 27, p.tokens.kindAt 12, p.tokens.kindAt 14)) =
      (some .identifier, some .identifier, some .identifier, "A", "b", "c", some 12, some 14, .dot,
        .dot) := by cbv
  simp only [Prod.mk.injEq] at values parts
  obtain ⟨inner, behind, present, last, child, path, row, last', empty⟩ := values
  obtain ⟨first, second, third, a, b, c, dot, dot', kind, kind'⟩ := parts
  have dotted : (parse qualifiedField).tree.Dotted (tokenize qualifiedField)
      ((parse qualifiedField).tree.children 21) ["A", "b", "c"] := by
    have whole := Tree.Dotted.more first ⟨12, dot, kind⟩
      (.more second ⟨14, dot', kind'⟩ (.last third))
    rw [a, b, c, ← row] at whole
    exact whole
  obtain ⟨s, innermost, named⟩ := Option.map_eq_some_iff.mp inner
  obtain ⟨s', innermost', named'⟩ := Option.map_eq_some_iff.mp behind
  obtain ⟨r, found⟩ := Option.isSome_iff_exists.mp present
  obtain ⟨_, _, _, fields⟩ := whereField_of_last qualifiedField
  obtain ⟨object, n, nearest, _, read⟩ := (fields 17 s "A" innermost named).2 r found
  obtain rfl := Option.some.inj (nearest.symm.trans last)
  refine ⟨⟨s, innermost, named⟩, dotted, ⟨r, found, object, ?_⟩, ⟨s', innermost', named'⟩, last',
    ?_⟩
  · rw [(read 21 child path).2 _ dotted]
    decide
  · exact (fields 22 s' "A" innermost' named').1.mpr (.inr ⟨35, last', empty⟩)

end SoqlAssist
