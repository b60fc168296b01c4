import SoqlAssist.Proofs.Completion.Origin

/-!
Suggestions in nested queries. Where more than one query encloses the cursor, no suggestion is an
aggregate, a call of a function or a query inside the query; of the words that fit at the cursor,
only aggregates are held back.
-/
namespace SoqlAssist

namespace Completion

variable {ctx : CompletionContext} {item : CompletionItem} {cs : List TokenCandidate}

/-- Labels that have no place in a nested query. -/
def heldBack : List String :=
  ["COUNT()", "GROUP BY", "(SELECT ... FROM ...)"]

/-- The suggestion is no aggregate, no query and no call. -/
structure Nestable (item : CompletionItem) : Prop where
  label : item.label ∉ heldBack
  kind : item.kind ≠ .function

theorem nestable_own {c : TokenCandidate} (nested : ctx.isNested = true)
    (made : keywordItem? ctx c = some item) : Nestable item := by
  have kind := kindOfLabel_keyword made
  obtain ⟨_, label, labelled, free, rfl⟩ := keywordItem_eq_some_iff.mp made
  obtain ⟨single, ungrouped⟩ := free nested
  refine ⟨fun held => ?_, nofun⟩
  simp only [heldBack, List.mem_cons, List.not_mem_nil, or_false] at held
  rcases held with call | group | query
  · exact single (shownLabel_eq_call labelled call)
  · exact ungrouped ((shownLabel_eq_iff (by decide) (by decide) label).mp group)
  · have none : kindOfLabel? "(SELECT ... FROM ...)" = none := by decide +kernel
    rw [query, none] at kind
    cases kind

theorem nestable_keyword (nested : ctx.isNested = true) (member : item ∈ tokenItems ctx cs) :
    Nestable item := by
  obtain ⟨c, _, own, made, sibling⟩ := mem_tokenItems.mp member
  rcases List.mem_cons.mp sibling with rfl | sibling
  · exact nestable_own nested made
  · obtain ⟨l, paired, rfl⟩ := List.mem_map.mp sibling
    have others : ∀ pair ∈ siblingPairs, pair.2 ∉ heldBack := by decide
    exact ⟨others _ (mem_siblingLabels.mp paired), nofun⟩

theorem nestable_site (nested : ctx.isNested = true) (origin : SiteItem ctx item) :
    Nestable item := by
  have contradicts (single : ctx.isNested = false) : Nestable item := by
    rw [nested] at single
    cases single
  cases origin with
  | statistics label update =>
    have others : ∀ l ∈ ["UPDATE TRACKING", "UPDATE VIEWSTAT"], l ∉ heldBack := by decide
    exact ⟨others label update, nofun⟩
  | objects => exact ⟨by decide, nofun⟩
  | relationships parent known =>
    exact ⟨(by decide : Placeholder.relationships ∉ heldBack), nofun⟩
  | fields hint object => exact ⟨(by decide : Placeholder.objectFields ∉ heldBack), nofun⟩
  | relationshipFields hint _ object =>
    exact ⟨(by decide : Placeholder.relationshipFields ∉ heldBack), nofun⟩
  | function name single => exact contradicts single
  | subquery single => exact contradicts single
  | literal _ field found offered =>
    have others : ∀ l ∈ literalLabels, l ∉ heldBack := by decide +kernel
    obtain ⟨label, kind, _⟩ := mem_literalItems offered
    exact ⟨others _ label, kind⟩

theorem nestable_itemsFor {cs : Candidates} (nested : ctx.isNested = true)
    (member : item ∈ itemsFor ctx cs) : Nestable item := by
  rcases mem_itemsFor member with keyword | origin | rfl
  · exact nestable_keyword nested keyword
  · exact nestable_site nested origin
  · exact ⟨by decide, nofun⟩

/-- A word that fits at the cursor is suggested unless it is an aggregate. -/
theorem exists_keyword {c : TokenCandidate} {cs : Candidates} {label : String}
    (member : c ∈ cs.tokens) (fits : Fits ctx c) (labelled : candidateLabel? c = some label)
    (free : label ≠ "COUNT" ∧ label ≠ "GROUP BY") :
    ∃ item ∈ itemsFor ctx cs, item.label = shownLabel label := by
  have made := keywordItem_eq_some_iff.mpr ⟨fits, label, labelled, fun _ => free, rfl⟩
  have listed := mem_tokenItems.mpr ⟨c, member, _, made, List.mem_cons_self⟩
  exact ⟨_, tokenItems_subset_itemsFor cs listed, rfl⟩

end Completion

open Completion

/-- Where more than one query encloses the token that the cursor stands for, no suggestion is an
aggregate, a call or a query, whatever the predictor answers; the other words that fit there are
suggested. -/
theorem nested_without_aggregates (engine : CompletionEngine) (text : String) (cursor : Cursor)
    (position : Nat) (items : List CompletionItem)
    (completed : engine.complete text cursor = .ok items)
    (resolved : cursor.resolve (parse (Document.ofText text).padded).tokens = .ok position)
    (nested : 2 ≤ ((Analysis.ofParsed (parse (Document.ofText text).padded)).scopesAt
      position).length) :
    (∀ item ∈ items, item.label ≠ "COUNT()" ∧ item.label ≠ "GROUP BY" ∧ item.kind ≠ .function ∧
        item.label ≠ "(SELECT ... FROM ...)") ∧
      ∀ c ∈ (Candidates.collect engine.predict (parse (Document.ofText text).padded) position
          engine.settings).tokens,
        Fits (.ofDocument text position engine.settings.defaultObject) c →
        ∀ label, candidateLabel? c = some label → label ≠ "COUNT" → label ≠ "GROUP BY" →
          ∃ item ∈ items, item.label = shownLabel label := by
  obtain ⟨_, resolved', rfl⟩ := CompletionEngine.complete_eq_ok completed
  obtain rfl := Except.ok.inj (resolved.symm.trans resolved')
  have inside : (CompletionContext.ofDocument text position
      engine.settings.defaultObject).isNested = true := decide_eq_true nested
  constructor
  · intro item member
    obtain ⟨label, kind⟩ := nestable_itemsFor inside member
    simp only [heldBack, List.mem_cons, List.not_mem_nil, or_false, not_or] at label
    exact ⟨label.1, label.2.1, kind, label.2.2⟩
  · intro c member fits label labelled single ungrouped
    exact exists_keyword member fits labelled ⟨single, ungrouped⟩

def emptySelectList : String := "SELECT (SELECT  FROM Child) FROM Parent"

def columnsAndAggregates : Predictor := fun request =>
  ⟨[⟨.COUNT, []⟩, ⟨.GROUP, [.BY]⟩, ⟨.WHERE, []⟩],
    [⟨.field, [.query, .innerQuery, .selectExprs, .selectExpr], request.cursor⟩]⟩

theorem nested_without_aggregates_emptySelectList :
    let engine : CompletionEngine := ⟨columnsAndAggregates, .default⟩
    let items : List CompletionItem := [{ CompletionItem.keyword "WHERE" with preselect := true },
      relationshipFieldsWith { objectName := "Parent", relationshipName := some "Child" }]
    engine.complete emptySelectList ⟨1, 16⟩ = .ok items ∧
      Cursor.resolve ⟨1, 16⟩ (parse (Document.ofText emptySelectList).padded).tokens = .ok 5 ∧
      2 ≤ ((Analysis.ofParsed (parse (Document.ofText emptySelectList).padded)).scopesAt 5).length ∧
      ∀ item ∈ items, item.label ≠ "COUNT()" ∧ item.label ≠ "GROUP BY" ∧ item.kind ≠ .function ∧
        item.label ≠ "(SELECT ... FROM ...)" := by
  have completed : CompletionEngine.complete ⟨columnsAndAggregates, .default⟩ emptySelectList
      ⟨1, 16⟩ = .ok [{ CompletionItem.keyword "WHERE" with preselect := true },
        relationshipFieldsWith { objectName := "Parent", relationshipName := some "Child" }] := by
    decide +kernel
  have resolved : Cursor.resolve ⟨1, 16⟩
      (parse (Document.ofText emptySelectList).padded).tokens = .ok 5 := by decide +kernel
  have nested : 2 ≤ ((Analysis.ofParsed (parse
      (Document.ofText emptySelectList).padded)).scopesAt 5).length := by decide +kernel
  exact ⟨completed, resolved, nested,
    (nested_without_aggregates _ emptySelectList ⟨1, 16⟩ 5 _ completed resolved nested).1⟩

end SoqlAssist
