import SoqlAssist.Completion.Literal
import SoqlAssist.Proofs.Grammar.Operator
import SoqlAssist.Proofs.Query.Spans
import SoqlAssist.Proofs.Query.WhereField
import SoqlAssist.Proofs.Token.Spelling

/-!
The operator of a condition, from its tokens to the catalog. The tokens of an operator are written
in one way up to case; joined with a space between words they are the usual spelling up to case,
whatever stands between them; and each usual spelling is in the catalog. So null is suggested where
the operator allows it and only there.
-/
namespace SoqlAssist

open Grammar Text

section Rows

variable {t : Tree} {kind : Nat → TokenKind} {F : Forest} {parent : Option Nat} {i : Nat}

/-- The rules of a row of rules. -/
theorem Forest.Lodged.map_rule_roots {rules : List Rule} (lodged : F.Lodged t.nodes parent i)
    (same : F.labels kind = rules.map .rule) : (F.roots i).map t.rule? = rules.map some := by
  induction rules generalizing F i with
  | nil =>
    obtain rfl := labels_eq_nil same
    rfl
  | cons r rules ih =>
    obtain ⟨s, below, next, rfl, rest⟩ := labels_eq_rule same
    rw [roots, List.map_cons, List.map_cons, lodged.holds.rule, ih lodged.2.2 rest]

/-- The tokens of a row of tokens. -/
theorem Forest.Lodged.map_token_roots {kinds : List TokenKind} (lodged : F.Lodged t.nodes parent i)
    (same : F.labels kind = kinds.map .token) :
    (F.roots i).map t.token? = F.leaves.map some ∧ F.leaves.map kind = kinds := by
  induction kinds generalizing F i with
  | nil =>
    obtain rfl := labels_eq_nil same
    exact ⟨rfl, rfl⟩
  | cons k kinds ih =>
    obtain ⟨p, next, rfl, found, rest⟩ := labels_eq_token same
    obtain ⟨tokens, kinds⟩ := ih lodged.2 rest
    rw [roots, leaves, List.map_cons, List.map_cons, List.map_cons, lodged.token_leaf, tokens,
      kinds, found]
    exact ⟨rfl, rfl⟩

end Rows

section Spelling

variable {text : String} {ps : List Nat} {kinds : List TokenKind}

def Token.spelled (k : TokenKind) : Token :=
  ⟨k, k.spelling?.getD "", 0, 1, 0, .visible⟩

/-- The tokens of the operators have one spelling each, and together they are the operator. -/
theorem operatorForms_spelled : ∀ form ∈ operatorForms,
    (∀ k ∈ form.1, k.spelling?.isSome = true) ∧
      lower (Analysis.joinWords false (form.1.map Token.spelled)) = lower form.2 := by
  decide +kernel

theorem operatorForms_catalogued : ∀ form ∈ operatorForms,
    (QueryOperator.ofText? form.2).map (·.name) = some form.2 := by
  decide +kernel

theorem lower_texts (same : ps.map (tokenize text).kindAt = kinds)
    (spelled : ∀ k ∈ kinds, k.spelling?.isSome = true) :
    (ps.filterMap ((tokenize text)[·]?)).map (lower ·.text) =
      (kinds.map Token.spelled).map (lower ·.text) := by
  subst same
  induction ps with
  | nil => rfl
  | cons p ps ih =>
    rw [List.map_cons, List.forall_mem_cons] at spelled
    obtain ⟨w, found⟩ := Option.isSome_iff_exists.mp spelled.1
    cases here : (tokenize text)[p]? with
    | none =>
      rw [TokenStream.kindAt, here] at found
      cases found
    | some t =>
      have kind : (tokenize text).kindAt p = t.kind := by rw [TokenStream.kindAt, here]
      rw [kind] at found
      rw [List.filterMap_cons_some here, List.map_cons, List.map_cons, List.map_cons, List.map_cons,
        ih spelled.2, kind, tokenize_spelling here found, Token.spelled, found, Option.getD_some,
        TokenKind.lower_spelling found]

/-- The operator node `o` is written `written`, and `op` is that operator. -/
structure Spells (p : ParsedQuery) (o : Nat) (written : String) (op : QueryOperator) : Prop where
  form : ((p.tree.leaves o).map p.tokens.kindAt, op.name) ∈ operatorForms
  same : sameFold op.name written = true
  found : QueryOperator.ofText? written = some op

end Spelling

section Condition

variable {text : String} {F : Forest} {n : Nat}

theorem spells_operatorText
    (planted : (parse text).tree.Planted F (tokenize text).size)
    (operated : Operated (tokenize text).kindAt F)
    (rule : (parse text).tree.rule? n = some .comparisonOperator) :
    ∃ op, Spells (parse text) n
      (Analysis.operatorText (parse text).tree (tokenize text) n) op := by
  obtain ⟨s, below, held, _, every⟩ := planted.holds rule
  obtain ⟨kinds, listed, labels⟩ := every _ operated rfl
  obtain ⟨⟨_, name⟩, member, rfl⟩ := List.mem_map.mp listed
  obtain ⟨children, same⟩ := held.2.map_token_roots labels
  obtain ⟨spelled, joined⟩ := operatorForms_spelled _ member
  have texts : ((parse text).tree.children n).filterMap
      (fun c => ((parse text).tree.token? c).bind ((tokenize text)[·]?)) =
        below.leaves.filterMap ((tokenize text)[·]?) := by
    have same := congrArg (List.filterMap (·.bind ((tokenize text)[·]?))) children
    rw [List.filterMap_map, List.filterMap_map] at same
    rw [held.children]
    exact same
  have written : lower (Analysis.operatorText (parse text).tree (tokenize text) n) = lower name := by
    rw [Analysis.operatorText, texts, ← joined]
    exact Analysis.lower_joinWords false (lower_texts same spelled)
  obtain ⟨op, found, named⟩ := Option.map_eq_some_iff.mp (operatorForms_catalogued _ member)
  refine ⟨op, ?_, ?_, ?_⟩
  · rw [planted.leaves_eq held, named]
    exact same ▸ member
  · rw [sameFold, written, named, beq_self_eq_true]
  · rw [← found]
    exact QueryOperator.ofText_congr written

theorem parse_operated (text : String) :
    ∃ F, (parse text).tree.Planted F (tokenize text).size ∧ Shaped (tokenize text).kindAt F ∧
      Operated (tokenize text).kindAt F := by
  obtain ⟨start, below, s', grows, _, planted⟩ := parse_planted (tokenize text)
  have conforms := grows_query (fun _ _ _ _ => conforms_of_made) grows
  have reads := grows_query (fun _ _ _ _ => reads_of_made) grows
  exact ⟨_, planted, conforms.shaped, reads.operated⟩

def ConditionRules (rules : List (Option Rule)) : Prop :=
  rules = [] ∨ ∃ x ∈ [Rule.field, .functionCall, .distanceExpr], rules = [some x] ∨
    ∃ v ∈ [Rule.literalValue, .likeLiteral, .inList],
      rules = [some x, some .comparisonOperator, some v]

theorem conditionRules (planted : (parse text).tree.Planted F (tokenize text).size)
    (shaped : Shaped (tokenize text).kindAt F)
    (condition : (parse text).tree.rule? n = some .whereExpr) :
    ConditionRules (((parse text).tree.children n).map (parse text).tree.rule?) := by
  obtain ⟨s, below, held, _, every⟩ := planted.holds condition
  have row (rules : List Rule) (same : below.labels (tokenize text).kindAt = rules.map .rule) :
      ((parse text).tree.children n).map (parse text).tree.rule? = rules.map some := by
    rw [← held.2.map_rule_roots same, held.children]
  rcases every _ shaped with labels | ⟨x, operand, labels | ⟨v, value, labels⟩⟩
  · exact .inl (row [] labels)
  · exact .inr ⟨x, operand, .inl (row [x] labels)⟩
  · exact .inr ⟨x, operand, .inr ⟨v, value, row [x, .comparisonOperator, v] labels⟩⟩

/-- A reference read from a condition has no operator, or the condition is complete and the operator
is spelled as it stands there. -/
theorem operator_cases {r : FieldReference}
    (planted : (parse text).tree.Planted F (tokenize text).size)
    (operated : Operated (tokenize text).kindAt F)
    (rules : ConditionRules (((parse text).tree.children n).map (parse text).tree.rule?))
    (read : (Analysis.ofParsed (parse text)).ReadFrom n r) :
    r.operator = none ∧ ((parse text).tree.children n).length ≠ 3 ∨
      ∃ o written op, r.operator = some written ∧ ((parse text).tree.children n).length = 3 ∧
        (parse text).tree.child? n 1 = some o ∧ Spells (parse text) o written op := by
  obtain ⟨_, _, _, operator⟩ := read
  change r.operator = if ((parse text).tree.children n).length > 2 then
    ((parse text).tree.child? n 1).map (Analysis.operatorText (parse text).tree (tokenize text))
    else none at operator
  have short {rules : List (Option Rule)} (few : rules.length ≤ 1)
      (same : ((parse text).tree.children n).map (parse text).tree.rule? = rules) :
      r.operator = none ∧ ((parse text).tree.children n).length ≠ 3 := by
    rw [← same, List.length_map] at few
    exact ⟨by rw [operator, if_neg (by omega)], by omega⟩
  rcases rules with empty | ⟨x, _, alone | ⟨v, _, all⟩⟩
  · exact .inl (short (by simp) empty)
  · exact .inl (short (by simp) alone)
  · have length : ((parse text).tree.children n).length = 3 := by
      simpa using congrArg List.length all
    have second := congrArg (·[1]?) all
    rw [List.getElem?_map] at second
    obtain ⟨o, found, rule⟩ := Option.map_eq_some_iff.mp second
    obtain ⟨op, spells⟩ := spells_operatorText planted operated rule
    refine .inr ⟨o, _, op, ?_, length, found, spells⟩
    rw [operator, if_pos (by rw [length]; decide), Tree.child?, found, Option.map_some]

end Condition

namespace Completion

def nullOperators : List String := ["=", "!=", "<>", "IN", "NOT IN"]

/-- No suggestion but the last is null. -/
theorem null_mem_literalItems (r : FieldReference) :
    (∃ item ∈ literalItems r, item.label = "NULL") ↔ forbidsNull r.operator = false := by
  have others : ∀ form ∈ literalForms ++ rangeForms, form.1.label ≠ "NULL" := by decide +kernel
  constructor
  · rintro ⟨item, member, label⟩
    rw [literalItems, List.mem_append, List.mem_append] at member
    rcases member with (member | member) | member
    · obtain ⟨⟨form, types⟩, listed, rfl⟩ := List.mem_map.mp member
      exact absurd label (others _ listed)
    · rw [List.mem_singleton.mp member] at label
      exact absurd (show Placeholder.literalValues = "NULL" from label) (by decide)
    · split at member
      · exact absurd member List.not_mem_nil
      · exact Bool.eq_false_iff.mpr ‹_›
  · intro allowed
    refine ⟨(CompletionItem.keyword "NULL").withHint
      { Hint.forField r.objectName r.fieldName with onlyNillable := some true },
      List.mem_append_right _ ?_, rfl⟩
    rw [allowed]
    exact List.mem_cons_self

theorem forbidsNull_eq_false {written : String} {op : QueryOperator}
    (found : QueryOperator.ofText? written = some op) :
    forbidsNull (some written) = false ↔ op.name ∈ nullOperators := by
  have table : ∀ op ∈ QueryOperator.all, op.notNullable = false ↔ op.name ∈ nullOperators := by
    decide +kernel
  simp only [forbidsNull, Option.bind_some, found]
  exact table op (List.mem_of_find?_eq_some found)

end Completion

open Completion

/-- A condition is empty, an operand, or an operand, an operator and a value. What is read from it
has an operator if and only if it has all three, and then the operator's tokens are those of an
operator of the catalog, which the text leads back to; null is suggested if and only if there is no
operator or it compares with null. -/
theorem operator_of_condition (text : String) (c : Nat)
    (condition : (parse text).tree.rule? c = some .whereExpr) :
    let t := (parse text).tree
    ConditionRules ((t.children c).map t.rule?) ∧
    ∀ i r, Analysis.nearestCondition? t i = some c →
      (Analysis.ofParsed (parse text)).whereField? i = some r →
        (r.operator.isSome = true ↔ (t.children c).length = 3) ∧
        (∀ written, r.operator = some written →
          ∃ o op, t.child? c 1 = some o ∧ Spells (parse text) o written op) ∧
        ((∃ item ∈ literalItems r, item.label = "NULL") ↔
          r.operator = none ∨ ∃ written op, r.operator = some written ∧
            QueryOperator.ofText? written = some op ∧ op.name ∈ nullOperators) := by
  intro t
  obtain ⟨F, planted, shaped, operated⟩ := parse_operated text
  have rules := conditionRules planted shaped condition
  refine ⟨rules, fun i r nearest found => ?_⟩
  obtain ⟨c', _, nearest', read, _⟩ := Analysis.whereField_eq_some found
  obtain rfl := Option.some.inj (nearest.symm.trans nearest')
  rw [null_mem_literalItems]
  rcases operator_cases planted operated rules read with
    ⟨absent, short⟩ | ⟨o, written, op, present, length, child, spells⟩
  · simp only [absent]
    exact ⟨by simpa using short, by simp, by simp [forbidsNull]⟩
  · simp only [present]
    refine ⟨by simpa using length, ?_, ?_⟩
    · rintro _ ⟨⟩
      exact ⟨o, op, child, spells⟩
    · rw [forbidsNull_eq_false spells.found]
      simp [spells.found]

/-- An operator of two words with a comment and a line break between them. -/
def looseOperator : String := "SELECT Id FROM A WHERE x not--\n\tIn (:y)"

theorem operator_of_looseOperator :
    let t := (parse looseOperator).tree
    let r : FieldReference := ⟨"A", "x", some "not In"⟩
    (Analysis.ofParsed (parse looseOperator)).whereField? 16 = some r ∧
      (t.children 18).length = 3 ∧
      (∃ o op, t.child? 18 1 = some o ∧ Spells (parse looseOperator) o "not In" op ∧
        op.name = "NOT IN") ∧
      ∃ item ∈ literalItems r, item.label = "NULL" := by
  have values : (let a := Analysis.ofParsed (parse looseOperator)
      (a.parsed.tree.rule? 18, Analysis.nearestCondition? a.parsed.tree 16, a.whereField? 16)) =
        (some .whereExpr, some 18, some ⟨"A", "x", some "not In"⟩) := by cbv
  have catalogued : QueryOperator.ofText? "not In" = some ⟨"NOT IN", none, false⟩ := by
    decide +kernel
  simp only [Prod.mk.injEq] at values
  obtain ⟨condition, nearest, found⟩ := values
  obtain ⟨complete, spelled, null⟩ :=
    (operator_of_condition looseOperator 18 condition).2 16 _ nearest found
  obtain ⟨o, op, child, spells⟩ := spelled "not In" rfl
  obtain rfl := Option.some.inj (spells.found.symm.trans catalogued)
  exact ⟨found, complete.mp rfl, ⟨o, _, child, spells, rfl⟩,
    null.mpr (.inr ⟨"not In", _, rfl, catalogued, by decide⟩)⟩

end SoqlAssist
