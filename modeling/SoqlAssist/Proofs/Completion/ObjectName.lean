import SoqlAssist.Proofs.Completion.Origin
import SoqlAssist.Proofs.Query.WhereField

/-!
The objects that hints name. A scope has an object with a name or none, and accepted settings have a
default object with a name; so a hint at the innermost query always names an object. The hint at the
fields of a relationship is about the query around, for which no default stands in: it names no
object exactly if that query has none yet.
-/
namespace SoqlAssist

namespace QueryScopes

variable {t : Tree} {tokens : TokenStream} {scopes : QueryScopes} {id : Nat}

/-- No scope has an object with an empty name. -/
def Named (scopes : QueryScopes) : Prop :=
  ∀ s ∈ scopes.toList, s.objectName ≠ some ""

theorem nameAt_ne_empty (id : Nat) : nameAt? t tokens id ≠ some "" := by
  rw [nameAt?]
  split
  · intro same
    cases same
  · rename_i filled
    intro same
    rw [Option.some.inj same] at filled
    exact filled rfl

theorem mem_insertSorted {s x : QueryScope} {l : List QueryScope} (member : x ∈ insertSorted s l) :
    x = s ∨ x ∈ l := by
  induction l with
  | nil => exact .inl (List.mem_singleton.mp member)
  | cons y l ih =>
    rw [insertSorted] at member
    grind

theorem Named.register (named : Named scopes) (isSemiJoin : Bool) :
    Named (register t scopes id isSemiJoin) := by
  rw [QueryScopes.register]
  split
  · intro s member
    rcases mem_insertSorted member with rfl | known
    · intro same
      cases same
    · exact named s known
  · exact named

theorem Named.modifyOwner (named : Named scopes) {f : QueryScope → QueryScope}
    (keeps : ∀ s, s.objectName ≠ some "" → (f s).objectName ≠ some "") :
    Named (modifyOwner t scopes id f) := by
  rw [QueryScopes.modifyOwner]
  split
  · intro s member
    obtain ⟨s', known, rfl⟩ := List.mem_map.mp member
    split
    · exact keeps s' (named s' known)
    · exact named s' known
  · exact named

theorem Named.recordFrom (named : Named scopes) : Named (recordFrom t tokens scopes id) := by
  rw [QueryScopes.recordFrom]
  split
  · exact named
  · refine named.modifyOwner fun s _ empty => ?_
    obtain ⟨path, _, name⟩ := Option.bind_eq_some_iff.mp empty
    exact nameAt_ne_empty path name

theorem Named.recordColumn (named : Named scopes) : Named (recordColumn t tokens scopes id) := by
  rw [QueryScopes.recordColumn]
  split
  · exact named
  · exact named.modifyOwner fun s kept => kept

theorem Named.recordGroups (named : Named scopes) : Named (recordGroups t tokens scopes id) := by
  rw [QueryScopes.recordGroups]
  split
  · exact named
  · exact named.modifyOwner fun s kept => kept

theorem Named.observe (named : Named scopes) (v : Visit) : Named (observe t tokens scopes v) := by
  rw [observe.eq_def]
  split
  · exact named.register false
  · exact named.register true
  · exact named.recordColumn
  · exact named.recordGroups
  · exact named.recordFrom
  · exact named

theorem named_ofTree (t : Tree) (tokens : TokenStream) : Named (ofTree t tokens) := by
  have run (vs : List Visit) {scopes : QueryScopes} (named : Named scopes) :
      Named (vs.foldl (QueryScopes.observe t tokens) scopes) := by
    induction vs generalizing scopes with
    | nil => exact named
    | cons v vs ih => exact ih (named.observe v)
  exact run t.walk fun s member => absurd member List.not_mem_nil

theorem Named.scopesAt (named : Named scopes) {i : Nat} {s : QueryScope}
    (member : s ∈ scopes.scopesAt i) : s.objectName ≠ some "" :=
  named s (List.mem_filter.mp (List.mem_reverse.mp member)).1

end QueryScopes

/-- The default object of accepted settings has a name. -/
theorem Settings.defaultObject_ne_empty {d : Data} {s : Settings} (accepted : ofClient d = .ok s) :
    s.defaultObject ≠ "" := by
  have validated (s' : Settings) (valid : s'.validate = .ok s) : s.defaultObject ≠ "" := by
    rw [validate] at valid
    split at valid
    · cases valid
    · rename_i solid
      obtain rfl := Except.ok.inj valid
      rintro empty
      exact solid (by rw [empty]; rfl)
  rw [ofClient] at accepted
  split at accepted
  · exact validated _ accepted
  split at accepted
  · exact validated _ accepted
  · cases accepted

namespace CompletionContext

variable {a : Analysis} {position : Nat} {defaultObject : String}

theorem parentObject_eq (ctx : CompletionContext) :
    ctx.parentObject? = ctx.scopes[1]?.bind (·.objectName) := by
  rw [parentObject?, isNested]
  split
  · rfl
  · rename_i single
    have absent : ctx.scopes[1]? = none := by
      rw [List.getElem?_eq_none_iff]
      simpa using single
    rw [absent, Option.bind_none]

/-- The query around has an object with a name or none. -/
theorem parentObject_getD_eq_empty_iff (named : a.scopes.Named) :
    (ofPosition a position defaultObject).parentObject?.getD "" = "" ↔
      (ofPosition a position defaultObject).parentObject? = none := by
  cases known : (ofPosition a position defaultObject).parentObject? with
  | none => exact iff_of_true rfl rfl
  | some name =>
    rw [parentObject_eq] at known
    obtain ⟨s, found, object⟩ := Option.bind_eq_some_iff.mp known
    refine iff_of_false ?_ nofun
    rintro rfl
    exact named.scopesAt (List.mem_of_getElem? found) object

theorem objectName_ne_empty (named : a.scopes.Named) (default : defaultObject ≠ "") :
    (ofPosition a position defaultObject).objectName ≠ "" := by
  change ((a.scopesAt position).head?.bind (·.objectName)).getD defaultObject ≠ ""
  cases known : (a.scopesAt position).head?.bind (·.objectName) with
  | none => exact default
  | some name =>
    obtain ⟨s, found, object⟩ := Option.bind_eq_some_iff.mp known
    rintro rfl
    exact named.scopesAt (List.mem_of_mem_head? found) object

/-- The field of a condition belongs to the object at the cursor. -/
theorem whereField_objectName {field : FieldReference}
    (found : (ofPosition a position defaultObject).whereField? = some field) :
    field.objectName = (ofPosition a position defaultObject).objectName := by
  obtain ⟨_, s, _, _, innermost, object⟩ := Analysis.whereField_eq_some found
  have first : (a.scopesAt position).head? = some s := innermost
  change _ = ((a.scopesAt position).head?.bind (·.objectName)).getD defaultObject
  rw [first, Option.bind_some, object, Option.getD_some]

end CompletionContext

namespace Completion

/-- Placeholders that stand for parts of the query around. -/
def outerLabels : List String :=
  [Placeholder.relationships, Placeholder.relationshipFields]

/-- The hint of a suggestion is about the object of the innermost query, or for relationships about
that of the query around. -/
structure Addressed (ctx : CompletionContext) (item : CompletionItem) (hint : Hint) : Prop where
  inner : item.label ∉ outerLabels → hint.objectName = ctx.objectName
  outer : item.label ∈ outerLabels → hint.objectName = ctx.parentObject?.getD ""
  known : item.label = Placeholder.relationships → ctx.parentObject? ≠ none

section Document

variable {a : Analysis} {position : Nat} {defaultObject : String} {item : CompletionItem}
  {hint : Hint}

theorem addressed_of_inner {ctx : CompletionContext} (inner : item.label ∉ outerLabels)
    (object : hint.objectName = ctx.objectName) : Addressed ctx item hint := by
  refine ⟨fun _ => object, fun outer => absurd outer inner, fun outer => ?_⟩
  rw [outer] at inner
  exact absurd List.mem_cons_self inner

theorem operatorHint_objectName {kind : TokenKind} {label : String}
    (hinted : operatorHint? (.ofPosition a position defaultObject) kind label = some hint) :
    hint.objectName = (CompletionContext.ofPosition a position defaultObject).objectName := by
  rw [operatorHint?] at hinted
  split at hinted
  · obtain ⟨field, found, rfl⟩ := Option.map_eq_some_iff.mp hinted
    exact CompletionContext.whereField_objectName found
  · cases hinted

theorem addressed_keyword {cs : List TokenCandidate}
    (member : item ∈ tokenItems (.ofPosition a position defaultObject) cs)
    (hinted : item.hint = some hint) :
    Addressed (.ofPosition a position defaultObject) item hint := by
  have kinds : ∀ l ∈ outerLabels, kindOfLabel? l = none := by decide +kernel
  have siblings : ∀ pair ∈ siblingPairs, pair.2 ∉ outerLabels := by decide
  obtain ⟨c, _, own, made, sibling⟩ := mem_tokenItems.mp member
  have kind := kindOfLabel_keyword made
  obtain ⟨_, label, _, _, rfl⟩ := keywordItem_eq_some_iff.mp made
  rcases List.mem_cons.mp sibling with rfl | sibling
  · refine addressed_of_inner (fun outer => ?_) (operatorHint_objectName hinted)
    rw [kinds _ outer] at kind
    cases kind
  · obtain ⟨l, paired, rfl⟩ := List.mem_map.mp sibling
    exact addressed_of_inner (siblings _ (mem_siblingLabels.mp paired))
      (operatorHint_objectName hinted)

theorem addressed_site (origin : SiteItem (.ofPosition a position defaultObject) item)
    (hinted : item.hint = some hint) :
    Addressed (.ofPosition a position defaultObject) item hint := by
  cases origin with
  | statistics label update => cases hinted
  | objects => cases hinted
  | relationships parent known =>
    cases hinted
    refine ⟨fun inner => absurd List.mem_cons_self inner, fun _ => ?_, fun _ => ?_⟩
    · rw [known]
      rfl
    · rw [known]
      exact nofun
  | fields hint' object =>
    cases hinted
    exact addressed_of_inner (by decide : Placeholder.objectFields ∉ outerLabels) object
  | relationshipFields hint' nested object =>
    cases hinted
    refine ⟨fun inner => absurd (List.mem_cons_of_mem _ List.mem_cons_self) inner,
      fun _ => object, fun same => ?_⟩
    exact absurd (show Placeholder.relationshipFields = Placeholder.relationships from same)
      (by decide)
  | function name single => cases hinted
  | subquery single => cases hinted
  | literal _ field found offered =>
    have others : ∀ l ∈ literalLabels, l ∉ outerLabels := by decide +kernel
    obtain ⟨label, _, hint', hinted', object⟩ := mem_literalItems offered
    obtain rfl := Option.some.inj (hinted.symm.trans hinted')
    exact addressed_of_inner (others _ label)
      (object.trans (CompletionContext.whereField_objectName found))

theorem addressed_itemsFor {cs : Candidates}
    (member : item ∈ itemsFor (.ofPosition a position defaultObject) cs)
    (hinted : item.hint = some hint) :
    Addressed (.ofPosition a position defaultObject) item hint := by
  rcases mem_itemsFor member with keyword | origin | rfl
  · exact addressed_keyword keyword hinted
  · exact addressed_site origin hinted
  · cases hinted

/-- A hint names no object exactly if it is about the fields of a relationship and the query around
has no object. -/
theorem Addressed.empty_iff (addressed : Addressed (.ofPosition a position defaultObject) item hint)
    (named : a.scopes.Named) (default : defaultObject ≠ "") :
    hint.objectName = "" ↔ item.label = Placeholder.relationshipFields ∧
      (CompletionContext.ofPosition a position defaultObject).parentObject? = none := by
  by_cases outer : item.label ∈ outerLabels
  · rw [addressed.outer outer, CompletionContext.parentObject_getD_eq_empty_iff named]
    refine ⟨fun unknown => ⟨?_, unknown⟩, And.right⟩
    rcases List.mem_cons.mp outer with relationships | rest
    · exact absurd unknown (addressed.known relationships)
    · exact List.mem_singleton.mp rest
  · rw [addressed.inner outer]
    refine iff_of_false (CompletionContext.objectName_ne_empty named default) ?_
    rintro ⟨label, _⟩
    rw [label] at outer
    exact outer (List.mem_cons_of_mem _ List.mem_cons_self)

end Document

end Completion

open Completion

/-- Under accepted settings a hint names no object exactly if it stands at the fields of a
relationship and the query around has no object yet. Only hints at relationships are about the query
around; others name the object of the innermost query, or the default object where it has none. -/
theorem hint_names_object_unless (predict : Predictor) (client : Data) (settings : Settings)
    (text : String) (cursor : Cursor) (items : List CompletionItem)
    (accepted : Settings.ofClient client = .ok settings)
    (completed : CompletionEngine.complete ⟨predict, settings⟩ text cursor = .ok items) :
    ∃ position, cursor.resolve (parse (Document.ofText text).padded).tokens = .ok position ∧
      let scopes := (Analysis.ofParsed (parse (Document.ofText text).padded)).scopesAt position
      ∀ item ∈ items, ∀ hint, item.hint = some hint →
        (hint.objectName = "" ↔ item.label = Placeholder.relationshipFields ∧
          scopes[1]?.bind (·.objectName) = none) ∧
        (item.label ∉ outerLabels →
          hint.objectName = (scopes.head?.bind (·.objectName)).getD settings.defaultObject) ∧
        (item.label ∈ outerLabels →
          hint.objectName = (scopes[1]?.bind (·.objectName)).getD "") := by
  obtain ⟨position, resolved, rfl⟩ := CompletionEngine.complete_eq_ok completed
  refine ⟨position, resolved, fun item member hint hinted => ?_⟩
  have addressed := addressed_itemsFor member hinted
  have empty := addressed.empty_iff (QueryScopes.named_ofTree _ _)
    (Settings.defaultObject_ne_empty accepted)
  have outer := addressed.outer
  rw [CompletionContext.parentObject_eq] at empty outer
  exact ⟨empty, addressed.inner, outer⟩

def contactSettings : Settings :=
  { Settings.default with defaultObject := "Contact" }

def conditionField : Predictor := fun request =>
  ⟨[], [⟨.identifier, [.whereExpr], request.cursor⟩]⟩

theorem hint_names_object_unless_default :
    Settings.ofClient (.record [("soql", .record [("defaultSobject", .text "Contact")])]) =
        .ok contactSettings ∧
      CompletionEngine.complete ⟨conditionField, contactSettings⟩ "SELECT Id WHERE " ⟨1, 17⟩ =
        .ok [fieldsWith (.forObject "Contact")] ∧
      ∃ position, Cursor.resolve ⟨1, 17⟩
          (parse (Document.ofText "SELECT Id WHERE ").padded).tokens = .ok position ∧
        let scopes := (Analysis.ofParsed (parse
          (Document.ofText "SELECT Id WHERE ").padded)).scopesAt position
        ∀ item ∈ [fieldsWith (.forObject "Contact")], ∀ hint, item.hint = some hint →
          (hint.objectName = "" ↔ item.label = Placeholder.relationshipFields ∧
            scopes[1]?.bind (·.objectName) = none) ∧
          (item.label ∉ outerLabels →
            hint.objectName = (scopes.head?.bind (·.objectName)).getD "Contact") ∧
          (item.label ∈ outerLabels →
            hint.objectName = (scopes[1]?.bind (·.objectName)).getD "") := by
  have accepted : Settings.ofClient (.record [("soql", .record [("defaultSobject",
      .text "Contact")])]) = .ok contactSettings := rfl
  have completed : CompletionEngine.complete ⟨conditionField, contactSettings⟩
      "SELECT Id WHERE " ⟨1, 17⟩ = .ok [fieldsWith (.forObject "Contact")] := by decide +kernel
  exact ⟨accepted, completed,
    hint_names_object_unless conditionField _ contactSettings _ _ _ accepted completed⟩

def nestedColumn : Predictor := fun request =>
  ⟨[], [⟨.field, [.query, .innerQuery, .selectExprs, .selectExpr], request.cursor⟩]⟩

/-- No default stands in for the missing object of the query around. -/
theorem hint_without_object :
    Settings.ofClient .null = .ok .default ∧
      ∃ item hint,
        CompletionEngine.complete ⟨nestedColumn, .default⟩ "SELECT (SELECT  FROM Contacts)"
          ⟨1, 16⟩ = .ok [item] ∧
        item.hint = some hint ∧ hint.objectName = "" := by
  refine ⟨rfl, relationshipFieldsWith { objectName := "", relationshipName := some "Contacts" },
    _, ?_, rfl, rfl⟩
  decide +kernel

end SoqlAssist
