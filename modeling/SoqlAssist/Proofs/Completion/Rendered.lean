import SoqlAssist.Completion.Rendered
import SoqlAssist.Proofs.Data.Exchange

/-!
Suggestions written and rendered. Every field of a suggestion and of its hint has a key of its own,
a field without a value is left out and a missing field is read as having none; so what is written
is read back. Rendering keeps every field too: the kinds have numbers of their own, and the hint can
be read from the client's data.
-/
namespace SoqlAssist

open Data

theorem FieldType.ofName_name (t : FieldType) : ofName? t.name = some t :=
  find_name (by decide +kernel) (by cases t <;> decide)

theorem ItemKind.mem_all (k : ItemKind) : k ∈ all := by
  cases k <;> decide

theorem ItemKind.ofName_name (k : ItemKind) : ofName? k.name = some k :=
  find_name (by decide +kernel) k.mem_all

theorem Hint.optional_types (value : Option (List FieldType)) :
    Data.optional (list? (name? FieldType.ofName?))
      (value.map fun ts => .texts (ts.map (·.name))) = some value :=
  optional_map _ (list_texts FieldType.name FieldType.ofName_name) nofun value

theorem Hint.ofData_toData (h : Hint) : ofData? h.toData = some h := by
  rw [toData]
  apply present_cases (motive := fun d => ofData? d = some h)
  · exact (by decide : keys.Nodup)
  intro written values
  simp only [List.forall_mem_cons] at values
  obtain ⟨object, relationship, field, types, aggregatable, groupable, sortable, nillable, likely,
    hidden, _⟩ := values
  simp only [ofData?, fields?, Option.bind_eq_bind, Option.bind_some, Option.pure_def, object,
    relationship, field, types, aggregatable, groupable, sortable, nillable, likely, hidden,
    required, text?, optional_text, optional_bool, optional_texts, optional_types]

theorem Hint.toData_ne_null (h : Hint) : h.toData ≠ .null := by
  rw [toData, present]
  exact nofun

theorem CompletionItem.ofData_toData (item : CompletionItem) : ofData? item.toData = some item := by
  rw [toData]
  apply present_cases (motive := fun d => ofData? d = some item)
  · exact (by decide : keys.Nodup)
  intro written values
  simp only [List.forall_mem_cons] at values
  obtain ⟨label, kind, insertion, preselect, order, hint, _⟩ := values
  have read := optional_map Hint.toData Hint.ofData_toData Hint.toData_ne_null item.hint
  simp only [ofData?, fields?, Option.bind_eq_bind, Option.bind_some, Option.pure_def, label, kind,
    insertion, preselect, order, hint, required, text?, name?, ItemKind.ofName_name, orDefault,
    bool?, optional_text, read]

namespace RenderedItem

variable (item : CompletionItem)

theorem hint_ofItem : (ofItem item).hint? = item.hint := by
  rw [hint?, ofItem]
  cases item.hint with
  | none => rfl
  | some hint =>
    rw [Option.map_some]
    dsimp only
    rw [List.lookup_cons_self, Option.bind_some, Hint.ofData_toData]

theorem kindNumber_injective : Function.Injective kindNumber := by
  have numbers : ∀ k ∈ ItemKind.all, ∀ k' ∈ ItemKind.all,
      kindNumber k = kindNumber k' → k = k' := by decide
  intro k k' same
  exact numbers k k.mem_all k' k'.mem_all same

/-- Preselection is written only where there is any, and read back from that. -/
theorem preselect_injective :
    Function.Injective fun preselect : Bool => if preselect then some true else none := by
  decide

theorem ofItem_injective : Function.Injective ofItem := by
  intro a b same
  have hint : a.hint = b.hint := by rw [← hint_ofItem, same, hint_ofItem]
  have kind : a.kind = b.kind := kindNumber_injective (congrArg RenderedItem.kind same)
  have preselect : a.preselect = b.preselect :=
    preselect_injective (congrArg RenderedItem.preselect same)
  have label : a.label = b.label := congrArg RenderedItem.label same
  have insertion : a.insertText = b.insertText := congrArg RenderedItem.insertText same
  have order : a.sortText = b.sortText := congrArg RenderedItem.sortText same
  calc a = ⟨a.label, a.kind, a.insertText, a.preselect, a.sortText, a.hint⟩ := rfl
    _ = ⟨b.label, b.kind, b.insertText, b.preselect, b.sortText, b.hint⟩ := by
      rw [label, kind, insertion, preselect, order, hint]
    _ = b := rfl

/-- A suggestion is read back from what is written, whatever fields it has, and its hint from the
client's data of what is rendered; what is inserted is marked as a template wherever there is any,
and no two suggestions are rendered alike. -/
theorem exchange_faithful :
    (∀ item : CompletionItem, CompletionItem.ofData? item.toData = some item ∧
      ((ofItem item).hint? = item.hint ∧ ((ofItem item).data = none ↔ item.hint = none)) ∧
      ((ofItem item).insertTextFormat = some template ↔ (ofItem item).insertText.isSome)) ∧
    Function.Injective ofItem := by
  refine ⟨fun item => ⟨item.ofData_toData, ⟨hint_ofItem item, ?_⟩, ?_⟩, ofItem_injective⟩
  · exact Option.map_eq_none_iff
  · rw [ofItem]
    cases item.insertText <;> simp

/-- An empty list and a `false` are values: a hint that has them is not one that has none. -/
theorem exchange_faithful_emptyValues :
    let hint : Hint := { objectName := "", onlyTypes := some [], onlyNillable := some false }
    let item : CompletionItem := ⟨"", .object, some "", true, none, some hint⟩
    let other : CompletionItem := { item with hint := some (.forObject "") }
    CompletionItem.ofData? item.toData = some item ∧ (ofItem item).hint? = some hint ∧
      (ofItem item).insertTextFormat = some template ∧ ofItem item ≠ ofItem other := by
  intro hint item other
  obtain ⟨each, injective⟩ := exchange_faithful
  obtain ⟨read, ⟨hinted, _⟩, format⟩ := each item
  have different : item ≠ other := by decide
  exact ⟨read, hinted, format.mpr rfl, fun same => different (injective same)⟩

end RenderedItem

end SoqlAssist
