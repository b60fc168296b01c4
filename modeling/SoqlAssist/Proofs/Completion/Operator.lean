import SoqlAssist.Proofs.Completion.Origin

/-!
Suggestions of operators. Only candidate tokens lead to the signs of comparisons, so whatever else
is suggested, each sign is followed by the operators that come with it, `=` is left out where it
would complete an operator of two signs, and an ordering carries the field of the condition at the
cursor exactly if there is one.
-/
namespace SoqlAssist

namespace Completion

variable {ctx : CompletionContext} {cs : List TokenCandidate} {item own : CompletionItem}

section Siblings

/-- Each suggestion is followed by the operators that come with it, alike in all but the label. -/
def Accompanied (items : List CompletionItem) : Prop :=
  ∀ front item back, items = front ++ item :: back →
    (siblingLabels item.label).map (fun label => { item with label }) <+: back

theorem accompanied_nil : Accompanied [] := by
  intro front item back split
  simp at split

theorem Accompanied.cons {items : List CompletionItem} (others : Accompanied items)
    (first : (siblingLabels item.label).map (fun label => { item with label }) <+: items) :
    Accompanied (item :: items) := by
  intro front next back split
  cases front with
  | nil =>
    obtain ⟨rfl, rfl⟩ := List.cons.inj split
    exact first
  | cons _ front => exact others front next back (List.cons.inj split).2

/-- Suggestions that nothing comes with may stand before others. -/
theorem Accompanied.append {items singles : List CompletionItem} (others : Accompanied items)
    (alone : ∀ item ∈ singles, siblingLabels item.label = []) : Accompanied (singles ++ items) := by
  induction singles with
  | nil => exact others
  | cons item singles ih =>
    obtain ⟨none, rest⟩ := List.forall_mem_cons.mp alone
    refine (ih rest).cons ?_
    rw [none]
    exact List.nil_prefix

theorem siblings_alone {label : String} :
    ∀ sibling ∈ siblingLabels label, siblingLabels sibling = [] := by
  have pairs : ∀ pair ∈ siblingPairs, siblingLabels pair.2 = [] := by decide
  intro sibling member
  exact pairs _ (mem_siblingLabels.mp member)

theorem accompanied_withSiblings {items : List CompletionItem} (others : Accompanied items)
    (keyword : own.kind = .keyword) : Accompanied (withSiblings own ++ items) := by
  have same : own.sibling = fun label => { own with label } := by
    funext label
    rw [CompletionItem.sibling, ← keyword]
  have alone : ∀ item ∈ (siblingLabels own.label).map own.sibling,
      siblingLabels item.label = [] := by
    intro item member
    obtain ⟨label, sibling, rfl⟩ := List.mem_map.mp member
    exact siblings_alone label sibling
  refine (others.append alone).cons ?_
  rw [same]
  exact List.prefix_append _ _

theorem keyword_kind {c : TokenCandidate} (made : keywordItem? ctx c = some item) :
    item.kind = .keyword := by
  obtain ⟨_, _, _, _, rfl⟩ := keywordItem_eq_some_iff.mp made
  rfl

theorem accompanied_tokenItems {items : List CompletionItem} (others : Accompanied items) :
    Accompanied (tokenItems ctx cs ++ items) := by
  have keywords : ∀ own ∈ cs.filterMap (keywordItem? ctx), own.kind = .keyword := by
    intro own member
    obtain ⟨c, _, made⟩ := List.mem_filterMap.mp member
    exact keyword_kind made
  rw [tokenItems]
  generalize cs.filterMap (keywordItem? ctx) = owns at keywords
  induction owns with
  | nil => exact others
  | cons own owns ih =>
    obtain ⟨first, rest⟩ := List.forall_mem_cons.mp keywords
    rw [List.flatMap_cons, List.append_assoc]
    exact accompanied_withSiblings (ih rest) first

end Siblings

section Signs

def signs : List String :=
  ["=", "<", ">", "<=", ">="]

theorem siteItem_label (origin : SiteItem ctx item) : item.label ∉ signs := by
  cases origin with
  | statistics label update =>
    have others : ∀ l ∈ ["UPDATE TRACKING", "UPDATE VIEWSTAT"], l ∉ signs := by decide
    exact others label update
  | objects => exact (by decide : Placeholder.objects ∉ signs)
  | relationships => exact (by decide : Placeholder.relationships ∉ signs)
  | fields => exact (by decide : Placeholder.objectFields ∉ signs)
  | relationshipFields => exact (by decide : Placeholder.relationshipFields ∉ signs)
  | function name =>
    -- A call is longer than any sign.
    have short : ∀ l ∈ signs, l.length ≤ 2 := by decide
    intro sign
    have length := short _ sign
    rw [CompletionItem.function, String.length_append] at length
    have five : "(...)".length = 5 := rfl
    omega
  | subquery => exact (by decide : subqueryTemplate.label ∉ signs)
  | literal _ field found offered =>
    have others : ∀ l ∈ literalLabels, l ∉ signs := by decide +kernel
    exact others _ (mem_literalItems offered).1

theorem siblingLabels_eq_nil {label : String} (other : label ∉ signs) :
    siblingLabels label = [] := by
  rw [siblingLabels]
  grind [signs]

theorem accompanied_itemsFor (ctx : CompletionContext) (cs : Candidates) :
    Accompanied (itemsFor ctx cs) := by
  obtain ⟨others, split, origins⟩ := itemsFor_eq_append ctx cs
  have alone : ∀ item ∈ others, siblingLabels item.label = [] := by
    intro item member
    rcases origins item member with site | rfl
    · exact siblingLabels_eq_nil (siteItem_label site)
    · decide
  rw [split, ← List.append_nil others]
  exact accompanied_tokenItems (accompanied_nil.append alone)

def comparisons : List (TokenKind × String) :=
  [(.eq, "="), (.lt, "<"), (.gt, ">")]

theorem plainSign_of_comparison {kind : TokenKind} {sign : String}
    (comparison : (kind, sign) ∈ comparisons) : PlainSign kind sign := by
  simp only [comparisons, List.mem_cons, Prod.mk.injEq, List.not_mem_nil, or_false] at comparison
  rcases comparison with ⟨rfl, rfl⟩ | ⟨rfl, rfl⟩ | ⟨rfl, rfl⟩
  all_goals
    exact ⟨rfl, rfl, shownLabel_eq_iff (by decide) (by decide), by decide +kernel, by decide⟩

/-- A sign comes from a candidate token: it is the sign of the candidate or comes with it. -/
theorem sign_origin {cs : Candidates} (member : item ∈ itemsFor ctx cs)
    (sign : item.label ∈ signs) :
    ∃ c ∈ cs.tokens, ∃ own, keywordItem? ctx c = some own ∧
      (item = own ∨ item = own.sibling item.label ∧ (own.label, item.label) ∈ siblingPairs) := by
  rcases mem_itemsFor member with keyword | site | rfl
  · obtain ⟨c, listed, own, made, sibling⟩ := mem_tokenItems.mp keyword
    refine ⟨c, listed, own, made, ?_⟩
    rcases List.mem_cons.mp sibling with rfl | sibling
    · exact .inl rfl
    · obtain ⟨label, paired, rfl⟩ := List.mem_map.mp sibling
      exact .inr ⟨rfl, mem_siblingLabels.mp paired⟩
  · exact absurd sign (siteItem_label site)
  · exact absurd sign (by decide)

/-- No operator comes with another under the sign of a comparison. -/
theorem comparison_origin {kind : TokenKind} {cs : Candidates} (member : item ∈ itemsFor ctx cs)
    (comparison : (kind, item.label) ∈ comparisons) :
    ∃ c ∈ cs.tokens, keywordItem? ctx c = some item := by
  have listed : ∀ pair ∈ comparisons, pair.2 ∈ signs ∧ ∀ l, (l, pair.2) ∉ siblingPairs := by
    simp [comparisons, signs, siblingPairs]
  obtain ⟨sign, single⟩ := listed _ comparison
  obtain ⟨c, candidate, own, made, rfl | ⟨_, paired⟩⟩ := sign_origin member sign
  · exact ⟨c, candidate, made⟩
  · exact absurd paired (single own.label)

theorem comparison_offered_iff {kind : TokenKind} {sign : String} {cs : Candidates}
    (comparison : (kind, sign) ∈ comparisons) :
    (∃ item ∈ itemsFor ctx cs, item.label = sign) ↔ OffersAlone ctx cs.tokens kind := by
  rw [(plainSign_of_comparison comparison).offered_iff]
  constructor
  · rintro ⟨item, member, rfl⟩
    obtain ⟨c, candidate, made⟩ := comparison_origin member comparison
    exact ⟨c, candidate, item, made, rfl⟩
  · rintro ⟨c, candidate, item, made, label⟩
    have listed := mem_tokenItems.mpr ⟨c, candidate, item, made, List.mem_cons_self⟩
    exact ⟨item, tokenItems_subset_itemsFor cs listed, label⟩

end Signs

section Equality

theorem isAfter_one (tokens : TokenStream) (i : Nat) (kinds : List TokenKind) :
    Lookaround.isAfter tokens i [kinds] =
      (Lookaround.visibleBefore tokens i).head?.any (kinds.contains ·.kind) := by
  rw [Lookaround.isAfter, List.reverse_singleton]
  cases Lookaround.visibleBefore tokens i with
  | nil => rfl
  | cons t ts => simp [Lookaround.fitsExpected]

/-- Right behind `<` or `>` there is no `=`. -/
theorem no_equality (ctx : CompletionContext) {t : Token} {cs : Candidates}
    (nearest : (Lookaround.visibleBefore ctx.tokens ctx.cursor).head? = some t)
    (angle : t.kind = .lt ∨ t.kind = .gt) (member : item ∈ itemsFor ctx cs) :
    item.label ≠ "=" := by
  intro equal
  have comparison : (.eq, "=") ∈ comparisons := by decide
  obtain ⟨c, _, kind, fits, _⟩ := (comparison_offered_iff comparison).mp ⟨item, member, equal⟩
  have after := fits.2 kind
  rw [isAfter_one, nearest, Option.any_some] at after
  rcases angle with less | greater
  · simp [less] at after
  · simp [greater] at after

end Equality

section Ordering

/-- The hint of an ordering: the field that it would compare and the types that have an order. -/
def orderingHint (field : FieldReference) : Hint :=
  { objectName := field.objectName
    fieldName := some field.fieldName
    onlyTypes := some FieldType.ordered }

def orderings : List String :=
  ["<", ">", "<=", ">="]

theorem orderings_types :
    ∀ sign ∈ orderings, (QueryOperator.ofText? sign).bind (·.types) = some FieldType.ordered := by
  decide +kernel

theorem operatorHint_ordering {kind : TokenKind} {sign : String}
    (typed : kind ∈ typedOperators) (ordering : sign ∈ orderings) :
    operatorHint? ctx kind sign = ctx.whereField?.map orderingHint := by
  rw [operatorHint?, if_pos (List.contains_iff_mem.mpr typed)]
  simp only [orderings_types sign ordering]
  rfl

theorem comparison_hint {c : TokenCandidate} {kind : TokenKind} {sign : String}
    (made : keywordItem? ctx c = some own) (comparison : (kind, sign) ∈ comparisons)
    (named : own.label = sign) : own.hint = operatorHint? ctx kind sign := by
  have plain := plainSign_of_comparison comparison
  have same := kindOfLabel_keyword made
  rw [named, plain.kind, Option.some.injEq] at same
  obtain ⟨_, label, _, _, rfl⟩ := keywordItem_eq_some_iff.mp made
  rw [same, ← (plain.shown label).mp named]

/-- An ordering of two signs comes with that of one sign. -/
theorem ordering_origin {cs : Candidates} (member : item ∈ itemsFor ctx cs)
    (ordering : item.label ∈ orderings) :
    ∃ c own, keywordItem? ctx c = some own ∧ (own.label = "<" ∨ own.label = ">") ∧
      item.hint = own.hint := by
  have sign : ∀ l ∈ orderings, l ∈ signs := by decide
  obtain ⟨c, _, own, made, rfl | ⟨same, paired⟩⟩ := sign_origin member (sign _ ordering)
  · refine ⟨c, item, made, ?_, rfl⟩
    have kinds : kindOfLabel? "<=" = none ∧ kindOfLabel? ">=" = none := by decide +kernel
    have kind := kindOfLabel_keyword made
    simp only [orderings, List.mem_cons, List.not_mem_nil, or_false] at ordering
    rcases ordering with less | greater | atMost | atLeast
    · exact .inl less
    · exact .inr greater
    · rw [atMost, kinds.1] at kind
      cases kind
    · rw [atLeast, kinds.2] at kind
      cases kind
  · have bases : ∀ pair ∈ siblingPairs, pair.2 ∈ orderings → pair.1 = "<" ∨ pair.1 = ">" := by
      decide
    refine ⟨c, own, made, bases _ paired ordering, ?_⟩
    rw [same]
    rfl

theorem ordering_hint (ctx : CompletionContext) {cs : Candidates} (member : item ∈ itemsFor ctx cs)
    (ordering : item.label ∈ orderings) : item.hint = ctx.whereField?.map orderingHint := by
  obtain ⟨c, own, made, less | greater, same⟩ := ordering_origin member ordering
  · have comparison : (.lt, "<") ∈ comparisons := by decide
    rw [same, comparison_hint made comparison less]
    exact operatorHint_ordering (by decide) (by decide)
  · have comparison : (.gt, ">") ∈ comparisons := by decide
    rw [same, comparison_hint made comparison greater]
    exact operatorHint_ordering (by decide) (by decide)

end Ordering

end Completion

open Completion

/-- Suggestions of operators are coherent, whatever the predictor answers. Behind `=`, `<` and `>`
come the operators of two signs, alike in all but the label; right behind `<` or `>` there is no
`=`; an ordering carries a hint exactly if there is a condition at the cursor, and then at its field
and at the types that have an order. The three signs are suggested exactly if a candidate suggests
them alone. -/
theorem operators_coherent (engine : CompletionEngine) (text : String) (cursor : Cursor)
    (items : List CompletionItem) (completed : engine.complete text cursor = .ok items) :
    let query := parse (Document.ofText text).padded
    ∃ position, cursor.resolve query.tokens = .ok position ∧
      (∀ front item back, items = front ++ item :: back →
        (item.label = "=" → [{ item with label := "!=" }, { item with label := "<>" }] <+: back) ∧
        (item.label = "<" → [{ item with label := "<=" }] <+: back) ∧
        (item.label = ">" → [{ item with label := ">=" }] <+: back)) ∧
      (∀ t, (Lookaround.visibleBefore query.tokens position).head? = some t →
        t.kind = .lt ∨ t.kind = .gt → ∀ item ∈ items, item.label ≠ "=") ∧
      (let field? := (Analysis.ofParsed query).whereField? position
      ∀ item ∈ items, item.label ∈ ["<", ">", "<=", ">="] →
        (item.hint ≠ none ↔ field? ≠ none) ∧
        (∀ field, field? = some field → item.hint = some
          { objectName := field.objectName
            fieldName := some field.fieldName
            onlyTypes := some FieldType.ordered }) ∧
        (QueryOperator.ofText? item.label).bind (·.types) = some FieldType.ordered) ∧
      ∀ kind sign, (kind, sign) ∈ [(.eq, "="), (.lt, "<"), (.gt, ">")] →
        ((∃ item ∈ items, item.label = sign) ↔
          OffersAlone (.ofDocument text position engine.settings.defaultObject)
            (Candidates.collect engine.predict query position engine.settings).tokens kind) := by
  intro query
  obtain ⟨position, resolved, rfl⟩ := CompletionEngine.complete_eq_ok completed
  refine ⟨position, resolved, ?_, ?_, ?_, ?_⟩
  · intro front item back split
    have company := accompanied_itemsFor _ _ front item back split
    obtain ⟨equal, less, greater⟩ : siblingLabels "=" = ["!=", "<>"] ∧
        siblingLabels "<" = ["<="] ∧ siblingLabels ">" = [">="] := by decide
    refine ⟨fun label => ?_, fun label => ?_, fun label => ?_⟩
    · rwa [label, equal] at company
    · rwa [label, less] at company
    · rwa [label, greater] at company
  · intro t nearest angle item member
    exact no_equality (.ofDocument text position engine.settings.defaultObject) nearest angle member
  · intro field? item member ordering
    have hint : item.hint = field?.map orderingHint :=
      ordering_hint (.ofDocument text position engine.settings.defaultObject) member ordering
    refine ⟨?_, ?_, orderings_types item.label ordering⟩
    · rw [hint]
      simp
    · intro field found
      rw [hint, found]
      rfl
  · intro kind sign comparison
    exact comparison_offered_iff comparison

def halfOperator : String := "SELECT Id FROM Account WHERE Name < "

def comparing : Predictor := fun _ => ⟨[⟨.eq, []⟩, ⟨.lt, []⟩], []⟩

theorem operators_coherent_halfOperator :
    let engine : CompletionEngine := ⟨comparing, .default⟩
    let query := parse (Document.ofText halfOperator).padded
    let field : FieldReference := ⟨"Account", "Name", some "<"⟩
    let less := (CompletionItem.keyword "<").withHint (orderingHint field)
    let items := [less, { less with label := "<=" }]
    (engine.complete halfOperator ⟨1, 37⟩ = .ok items ∧
        Cursor.resolve ⟨1, 37⟩ query.tokens = .ok 14) ∧
      [{ less with label := "<=" }] <+: items.tail ∧
      ((Lookaround.visibleBefore query.tokens 14).head? =
          some ⟨.lt, "<", 12, 1, 34, .visible⟩ ∧ ∀ item ∈ items, item.label ≠ "=") ∧
      (Analysis.ofParsed query).whereField? 14 = some field ∧
      less.hint = some (orderingHint field) := by
  intro engine query field less items
  have completed : engine.complete halfOperator ⟨1, 37⟩ = .ok items := by decide +kernel
  have resolved : Cursor.resolve ⟨1, 37⟩ query.tokens = .ok 14 := by decide +kernel
  have nearest : (Lookaround.visibleBefore query.tokens 14).head? =
      some ⟨.lt, "<", 12, 1, 34, .visible⟩ := by decide +kernel
  have found : (Analysis.ofParsed query).whereField? 14 = some field := by decide +kernel
  obtain ⟨position, resolved', company, unequal, hints, _⟩ :=
    operators_coherent engine halfOperator ⟨1, 37⟩ items completed
  obtain rfl := Except.ok.inj (resolved'.symm.trans resolved)
  exact ⟨⟨completed, resolved⟩, (company [] less _ rfl).2.1 rfl,
    ⟨nearest, unequal _ nearest (.inl rfl)⟩, found,
    (hints less List.mem_cons_self (by decide)).2.1 field found⟩

end SoqlAssist
