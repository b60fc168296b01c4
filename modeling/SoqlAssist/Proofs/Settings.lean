import SoqlAssist.Proofs.Data.Exchange
import SoqlAssist.Settings

/-!
Settings written and read back. Each key of the section is read on its own: what it holds is taken,
whatever other keys there are and in whatever order, and what it does not hold is the default. All
settings are accepted except those whose default object is blank, and that is asked last, of the
settings as they are read.
-/
namespace SoqlAssist

open Data

theorem TokenKind.mem_all (k : TokenKind) : k ∈ all := by
  cases k <;> decide

theorem Rule.mem_all (r : Rule) : r ∈ all := by
  cases r <;> decide

theorem TokenKind.ofName_name (k : TokenKind) : ofName? k.name = some k :=
  find_name (by decide +kernel) k.mem_all

theorem Rule.ofName_name (r : Rule) : ofName? r.name = some r :=
  find_name (by decide +kernel) r.mem_all

namespace Settings

variable {c : Settings} {fields unknown : List (String × Data)} {kinds : List TokenKind}
  {rules : List Rule} {object : String} {removed : String → Bool}

/-- The default object has a character that is not blank. -/
def Named (c : Settings) : Prop :=
  ∃ ch ∈ c.defaultObject.toList, Text.isBlank ch = false

instance : DecidablePred Named := fun c =>
  List.decidableBEx (fun ch => Text.isBlank ch = false) c.defaultObject.toList

/-- The settings with the default in place of what is under the removed keys. -/
def without (c : Settings) (removed : String → Bool) : Settings where
  ignoredTokens := if removed "ignoredTokens" then default.ignoredTokens else c.ignoredTokens
  preferredRules := if removed "preferredRules" then default.preferredRules else c.preferredRules
  defaultObject := if removed "defaultSobject" then default.defaultObject else c.defaultObject

theorem validate_eq (c : Settings) :
    c.validate = if c.Named then .ok c else .error .blankObject := by
  have blank : Text.isBlankText c.defaultObject = true ↔ ¬ c.Named := by
    simp [Text.isBlankText, Named]
  by_cases named : c.Named
  · rw [validate, if_neg fun all => blank.mp all named, if_pos named]
  · rw [validate, if_pos (blank.mpr named), if_neg named]

theorem set_texts {α : Type} [DecidableEq α] {name : α → String} {ofName? : String → Option α}
    (reads : ∀ x, ofName? (name x) = some x) (xs : List α) :
    set? ofName? (.texts (xs.map name)) = some fun x => xs.contains x := by
  rw [set?, list_texts name reads]
  rfl

theorem orDefault_removed {α : Type} {f : Data → Option α} {fallback x : α} {d : Data}
    (reads : f d = some x) (gone : Bool) :
    orDefault fallback f (if gone then none else some d) =
      some (if gone then fallback else x) := by
  cases gone with
  | true => rfl
  | false => exact reads

/-- A section in which the sets are listed in some way. -/
def sectionOf (kinds : List TokenKind) (rules : List Rule) (object : String) :
    List (String × Data) :=
  [("ignoredTokens", .texts (kinds.map (·.name))), ("preferredRules", .texts (rules.map (·.name))),
    ("defaultSobject", .text object)]

theorem lookup_sectionOf {key : String} {d : Data}
    (listed : (key, d) ∈ sectionOf kinds rules object) (new : ∀ field ∈ unknown, field.1 ∉ keys)
    (amended : fields.Perm ((sectionOf kinds rules object).filter (fun field => !removed field.1) ++
      unknown)) :
    fields.lookup key = if removed key then none else some d := by
  have distinct : ((sectionOf kinds rules object).map (·.1)).Nodup := (by decide : keys.Nodup)
  have unique : OneValue key (sectionOf kinds rules object) := oneValue_of_distinct distinct
  have known : key ∈ keys := List.mem_map_of_mem (f := (·.1)) listed
  have other : ∀ field ∈ unknown, field.1 ≠ key := by
    rintro field added rfl
    exact new field added known
  rw [lookup_amended unique other amended, (lookup_eq_some_iff unique).mpr listed]

/-- What a section holds is read key by key, with the default for what is removed. -/
theorem ofData_amended (new : ∀ field ∈ unknown, field.1 ∉ keys)
    (amended : fields.Perm ((sectionOf kinds rules object).filter (fun field => !removed field.1) ++
      unknown)) :
    ofData? (.record fields) =
      some (without ⟨fun k => kinds.contains k, fun r => rules.contains r, object⟩ removed) := by
  have tokens := lookup_sectionOf (List.mem_cons_self ..) new amended
  have preferred := lookup_sectionOf (.tail _ (List.mem_cons_self ..)) new amended
  have name := lookup_sectionOf (.tail _ (.tail _ (List.mem_cons_self ..))) new amended
  have text : text? (.text object) = some object := rfl
  simp only [ofData?, fields?, Option.bind_eq_bind, Option.bind_some, Option.pure_def, tokens,
    preferred, name, orDefault_removed (set_texts TokenKind.ofName_name kinds),
    orDefault_removed (set_texts Rule.ofName_name rules), orDefault_removed text]
  rfl

theorem ofClient_record {s : Settings} (read : ofData? (.record fields) = some s) :
    ofClient (.record [("soql", .record fields)]) =
      if s.Named then .ok s else .error .blankObject := by
  have found : section? (.record [("soql", .record fields)]) = some (.record fields) := by
    rw [section?, List.lookup_cons_self]
  rw [ofClient, found]
  dsimp only
  rw [read, ← validate_eq]

theorem contains_eq {α : Type} [DecidableEq α] {xs : List α} {p : α → Bool}
    (same : ∀ x, x ∈ xs ↔ p x = true) : (fun x => xs.contains x) = p := by
  funext x
  rw [Bool.eq_iff_iff, List.contains_iff_mem, same]

section Sent

variable (tokens : ∀ k, k ∈ kinds ↔ c.ignoredTokens k = true)
  (preferred : ∀ r, r ∈ rules ↔ c.preferredRules r = true)
include tokens preferred

theorem ofClient_amended (removed : String → Bool) (new : ∀ field ∈ unknown, field.1 ∉ keys)
    (amended : fields.Perm
      ((sectionOf kinds rules c.defaultObject).filter (fun field => !removed field.1) ++ unknown)) :
    ofClient (.record [("soql", .record fields)]) =
      if (c.without removed).Named then .ok (c.without removed) else .error .blankObject := by
  have read := ofData_amended new amended
  rw [contains_eq tokens, contains_eq preferred] at read
  exact ofClient_record read

/-- Nothing removed and nothing added. -/
theorem ofClient_sectionOf :
    ofClient (.record [("soql", .record (sectionOf kinds rules c.defaultObject))]) =
      if c.Named then .ok c else .error .blankObject := by
  apply ofClient_amended tokens preferred (fun _ => false) (List.forall_mem_nil _)
  rw [List.append_nil, Bool.not_false, List.filter_true]

end Sent

theorem mem_ignoredList (c : Settings) (k : TokenKind) :
    k ∈ c.ignoredList ↔ c.ignoredTokens k = true := by
  rw [ignoredList, List.mem_filter]
  exact and_iff_right k.mem_all

theorem mem_preferredList (c : Settings) (r : Rule) :
    r ∈ c.preferredList ↔ c.preferredRules r = true := by
  rw [preferredList, List.mem_filter]
  exact and_iff_right r.mem_all

/-- Settings are read back from what is written, unless the default object is blank. With keys
removed and unknown keys added, in any order, they are read with the defaults in place of what is
removed; and the sets may be written in any order and with repetitions. -/
theorem ofClient_section (c : Settings) :
    (ofClient (.record [("soql", c.toData)]) =
      if c.Named then .ok c else .error .blankObject) ∧
    (∀ (sent unknown fields : List (String × Data)) (removed : String → Bool),
      c.toData = .record sent → (∀ field ∈ unknown, field.1 ∉ keys) →
      fields.Perm (sent.filter (fun field => !removed field.1) ++ unknown) →
      ofClient (.record [("soql", .record fields)]) =
        if (c.without removed).Named then .ok (c.without removed) else .error .blankObject) ∧
    ∀ (kinds : List TokenKind) (rules : List Rule),
      (∀ k, k ∈ kinds ↔ c.ignoredTokens k = true) → (∀ r, r ∈ rules ↔ c.preferredRules r = true) →
      ofClient (.record [("soql", .record (sectionOf kinds rules c.defaultObject))]) =
        if c.Named then .ok c else .error .blankObject := by
  refine ⟨ofClient_sectionOf c.mem_ignoredList c.mem_preferredList, ?_, ?_⟩
  · intro sent unknown fields removed written new amended
    obtain rfl := Data.record.inj written
    exact ofClient_amended c.mem_ignoredList c.mem_preferredList removed new amended
  · intro kinds rules tokens preferred
    exact ofClient_sectionOf tokens preferred

/-- A blank object is refused, but it is not asked for where the key is removed. -/
theorem ofClient_section_blankObject :
    let c : Settings := ⟨fun k => k == .comma, fun _ => false, "\u2003"⟩
    let tokens : String × Data := ("ignoredTokens", .texts ["comma"])
    let rules : String × Data := ("preferredRules", .texts [])
    let object : String × Data := ("defaultSobject", .text "\u2003")
    let version : String × Data := ("version", .nat 2)
    c.toData = .record [tokens, rules, object] ∧
      ofClient (.record [("soql", .record [tokens, rules, object])]) = .error .blankObject ∧
      ofClient (.record [("soql", .record [version, rules, tokens])]) =
        .ok ⟨fun k => k == .comma, fun _ => false, "Object"⟩ := by
  intro c tokens rules object version
  have written : c.toData = .record [tokens, rules, object] := rfl
  have order : [version, rules, tokens].Perm ([tokens, rules] ++ [version]) :=
    List.reverse_perm [tokens, rules, version]
  have unknown : ∀ field ∈ [version], field.1 ∉ keys := by decide
  have blank : ¬ c.Named := by decide +kernel
  have named : (c.without (· == "defaultSobject")).Named := by decide +kernel
  obtain ⟨whole, amended, _⟩ := ofClient_section c
  refine ⟨written, ?_, ?_⟩
  · rw [← written, whole, if_neg blank]
  · rw [amended _ [version] _ (· == "defaultSobject") written unknown order, if_pos named]
    rfl

end Settings

end SoqlAssist
