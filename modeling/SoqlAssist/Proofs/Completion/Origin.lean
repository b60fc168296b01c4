import SoqlAssist.Proofs.Completion.Keyword

/-!
Where suggestions come from. Whatever a predictor answers, a suggestion is a reserved word or an
operator of a candidate that was kept, what some site has to offer, or the template of a whole
query. Each site offers only a few forms, whichever rule led to it.
-/
namespace SoqlAssist

namespace Completion

def queryTemplate : CompletionItem :=
  .snippet "SELECT ... FROM ..." "SELECT $2 FROM $1"

def subqueryTemplate : CompletionItem :=
  .snippet "(SELECT ... FROM ...)" "(SELECT $2 FROM $1)"

/-- The forms of what sites offer. -/
inductive SiteItem (ctx : CompletionContext) : CompletionItem → Prop where
  | statistics (label : String) (update : label ∈ ["UPDATE TRACKING", "UPDATE VIEWSTAT"]) :
    SiteItem ctx (.keyword label)
  | objects : SiteItem ctx (.object Placeholder.objects)
  | relationships (parent : String) (known : ctx.parentObject? = some parent) :
    SiteItem ctx ((CompletionItem.object Placeholder.relationships).withHint (.forObject parent))
  | fields (hint : Hint) (object : hint.objectName = ctx.objectName) :
    SiteItem ctx (fieldsWith hint)
  | relationshipFields (hint : Hint) (nested : ctx.isNested = true)
    (object : hint.objectName = ctx.parentObject?.getD "") :
    SiteItem ctx (relationshipFieldsWith hint)
  | function (name : String) (single : ctx.isNested = false) : SiteItem ctx (.function name)
  | subquery (single : ctx.isNested = false) : SiteItem ctx subqueryTemplate
  | literal (item : CompletionItem) (field : FieldReference) (found : ctx.whereField? = some field)
    (offered : item ∈ literalItems field) : SiteItem ctx item

variable {ctx : CompletionContext} {item : CompletionItem}

theorem argumentHint_objectName (ctx : CompletionContext) :
    (argumentHint ctx).objectName = ctx.objectName := by
  rw [argumentHint]
  split <;> rfl

theorem siteItem_fromItems (member : item ∈ fromItems ctx) : SiteItem ctx item := by
  rw [fromItems] at member
  split at member
  · rw [List.mem_singleton.mp member]
    exact .objects
  split at member
  · rename_i parent known
    rw [List.mem_singleton.mp member]
    exact .relationships parent known
  · exact absurd member List.not_mem_nil

theorem siteItem_of_mem {site : Site} (member : item ∈ site.items ctx) : SiteItem ctx item := by
  cases site with
  | updateStats =>
    simp only [Site.items, List.mem_cons, List.not_mem_nil, or_false] at member
    rcases member with rfl | rfl
    · exact .statistics _ (by simp)
    · exact .statistics _ (by simp)
  | fromExprs => exact siteItem_fromItems member
  | semiJoinField =>
    rw [List.mem_singleton.mp member]
    exact .fields _ rfl
  | selectColumnStart =>
    rw [Site.items] at member
    split at member
    · rename_i nested
      rw [List.mem_singleton.mp member]
      exact .relationshipFields _ nested rfl
    · rename_i single
      rw [Bool.not_eq_true] at single
      rcases List.mem_append.mp member with member | member
      · rcases List.mem_cons.mp member with rfl | member
        · exact .fields _ rfl
        · obtain ⟨f, _, rfl⟩ := List.mem_map.mp member
          exact .function _ single
      · rw [List.mem_singleton.mp member]
        exact .subquery single
  | selectFunctionArgument =>
    rw [List.mem_singleton.mp member]
    exact .fields _ (argumentHint_objectName ctx)
  | groupByField =>
    rw [List.mem_singleton.mp member]
    exact .fields _ rfl
  | orderByField =>
    rw [Site.items] at member
    split at member
    · rename_i nested
      rw [List.mem_singleton.mp member]
      exact .relationshipFields _ nested rfl
    · rw [List.mem_singleton.mp member]
      exact .fields _ rfl
  | filterIdentifier =>
    rw [List.mem_singleton.mp member]
    exact .fields _ rfl
  | literal =>
    rw [Site.items] at member
    split at member
    · rename_i field found
      exact .literal item field found member
    · exact absurd member List.not_mem_nil

def literalLabels : List String :=
  (literalForms ++ rangeForms).map (·.1.label) ++ [Placeholder.literalValues, "NULL"]

/-- Values have labels of their own, are no calls and carry the field that they are compared with. -/
theorem mem_literalItems {field : FieldReference} (member : item ∈ literalItems field) :
    item.label ∈ literalLabels ∧ item.kind ≠ .function ∧
      ∃ hint, item.hint = some hint ∧ hint.objectName = field.objectName := by
  have kinds : ∀ form ∈ literalForms ++ rangeForms, form.1.kind ≠ .function := by decide +kernel
  rw [literalItems, List.mem_append, List.mem_append] at member
  rcases member with (member | member) | member
  · obtain ⟨form, listed, rfl⟩ := List.mem_map.mp member
    refine ⟨List.mem_append_left _ ?_, kinds form listed, _, rfl, rfl⟩
    exact List.mem_map.mpr ⟨form, listed, rfl⟩
  · rw [List.mem_singleton.mp member]
    exact ⟨List.mem_append_right _ List.mem_cons_self, nofun, _, rfl, rfl⟩
  · split at member
    · exact absurd member List.not_mem_nil
    · rw [List.mem_singleton.mp member]
      exact ⟨List.mem_append_right _ (List.mem_cons_of_mem _ List.mem_cons_self), nofun, _, rfl,
        rfl⟩

theorem mem_tokenItems {cs : List TokenCandidate} :
    item ∈ tokenItems ctx cs ↔
      ∃ c ∈ cs, ∃ own, keywordItem? ctx c = some own ∧ item ∈ withSiblings own := by
  simp only [tokenItems, List.mem_flatMap, List.mem_filterMap]
  constructor
  · rintro ⟨own, ⟨c, member, made⟩, sibling⟩
    exact ⟨c, member, own, made, sibling⟩
  · rintro ⟨c, member, own, made, sibling⟩
    exact ⟨own, ⟨c, member, made⟩, sibling⟩

/-- The suggestions are those for the candidate tokens and, behind them, what sites offer and the
template of a query. -/
theorem itemsFor_eq_append (ctx : CompletionContext) (cs : Candidates) :
    ∃ others, itemsFor ctx cs = tokenItems ctx cs.tokens ++ others ∧
      ∀ item ∈ others, SiteItem ctx item ∨ item = queryTemplate := by
  have filled : ∃ others,
      (if (tokenItems ctx cs.tokens ++ ruleItems ctx cs.rules).isEmpty &&
          Lookaround.isAfter ctx.tokens ctx.cursor [[.SELECT], [.FROM]] then fromItems ctx
        else tokenItems ctx cs.tokens ++ ruleItems ctx cs.rules) =
        tokenItems ctx cs.tokens ++ others ∧ ∀ item ∈ others, SiteItem ctx item := by
    split
    · rename_i nothing
      rw [Bool.and_eq_true, List.isEmpty_iff, List.append_eq_nil_iff] at nothing
      refine ⟨fromItems ctx, ?_, fun item member => siteItem_fromItems member⟩
      rw [nothing.1.1, List.nil_append]
    · refine ⟨ruleItems ctx cs.rules, rfl, fun item member => ?_⟩
      obtain ⟨site, _, offered⟩ := List.mem_flatMap.mp member
      exact siteItem_of_mem offered
  obtain ⟨others, same, sites⟩ := filled
  rw [itemsFor, complement]
  simp only [same]
  split
  · refine ⟨others ++ [queryTemplate], List.append_assoc .., fun item member => ?_⟩
    exact (List.mem_append.mp member).imp (sites item) List.mem_singleton.mp
  · exact ⟨others, rfl, fun item member => .inl (sites item member)⟩

/-- Every suggestion is a word or an operator, belongs to a site or is the template of a query. -/
theorem mem_itemsFor {cs : Candidates} (member : item ∈ itemsFor ctx cs) :
    item ∈ tokenItems ctx cs.tokens ∨ SiteItem ctx item ∨ item = queryTemplate := by
  obtain ⟨others, split, origins⟩ := itemsFor_eq_append ctx cs
  rw [split] at member
  exact (List.mem_append.mp member).imp_right (origins item)

/-- What the candidates lead to is suggested; the complement only adds to it. -/
theorem tokenItems_subset_itemsFor (cs : Candidates) :
    tokenItems ctx cs.tokens ⊆ itemsFor ctx cs := by
  obtain ⟨others, split, _⟩ := itemsFor_eq_append ctx cs
  rw [split]
  exact List.subset_append_left _ _

end Completion

open Completion

def CompletionContext.ofDocument (text : String) (position : Nat) (defaultObject : String) :
    CompletionContext :=
  .ofPosition (.ofParsed (parse (Document.ofText text).padded)) position defaultObject

/-- A completion is that of the token to which the cursor is resolved. -/
theorem CompletionEngine.complete_eq_ok {engine : CompletionEngine} {text : String}
    {cursor : Cursor} {items : List CompletionItem}
    (completed : engine.complete text cursor = .ok items) :
    ∃ position, cursor.resolve (parse (Document.ofText text).padded).tokens = .ok position ∧
      items = itemsFor (.ofDocument text position engine.settings.defaultObject)
        (Candidates.collect engine.predict (parse (Document.ofText text).padded) position
          engine.settings) := by
  rw [complete] at completed
  split at completed
  · cases completed
  · simp only at completed
    split at completed
    · cases completed
    · rename_i position resolved
      exact ⟨position, resolved, (Except.ok.inj completed).symm⟩

end SoqlAssist
