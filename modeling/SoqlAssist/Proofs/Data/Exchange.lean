import Mathlib
import SoqlAssist.Data

/-!
Data written and read back. A record is read key by key, so the order of its fields and the keys
that are not asked for make no difference as long as a key has one value. What has a name is read
back from it as long as no name stands for two things, and so is a list of names.
-/
namespace SoqlAssist.Data

section Records

variable {β : Type} {fields fields' : List (String × β)} {key : String} {value : β}

def OneValue (key : String) (fields : List (String × β)) : Prop :=
  ∀ v w, (key, v) ∈ fields → (key, w) ∈ fields → v = w

theorem oneValue_of_distinct (distinct : (fields.map (·.1)).Nodup) : OneValue key fields := by
  intro v w first second
  have same := List.inj_on_of_nodup_map distinct first second rfl
  exact congrArg Prod.snd same

theorem lookup_eq_some_iff (unique : OneValue key fields) :
    fields.lookup key = some value ↔ (key, value) ∈ fields := by
  constructor
  · intro found
    obtain ⟨before, after, rfl, _⟩ := List.lookup_eq_some_iff.mp found
    exact List.mem_append_right before List.mem_cons_self
  · intro member
    cases found : fields.lookup key with
    | none =>
      have other := List.lookup_eq_none_iff.mp found (key, value) member
      exact absurd rfl (bne_iff_ne.mp other)
    | some first =>
      obtain ⟨before, after, rfl, _⟩ := List.lookup_eq_some_iff.mp found
      rw [unique first value (List.mem_append_right before List.mem_cons_self) member]

/-- Only the fields with a key decide what is found under it. -/
theorem lookup_congr (unique : OneValue key fields)
    (same : ∀ v, (key, v) ∈ fields ↔ (key, v) ∈ fields') :
    fields.lookup key = fields'.lookup key := by
  have unique' : OneValue key fields' := by
    intro v w first second
    exact unique v w ((same v).mpr first) ((same w).mpr second)
  apply Option.ext
  intro v
  rw [lookup_eq_some_iff unique, lookup_eq_some_iff unique', same]

theorem mem_present {fields : List (String × Option Data)} {written : List (String × Data)}
    {value : Data} (made : present fields = .record written) :
    (key, value) ∈ written ↔ (key, some value) ∈ fields := by
  obtain rfl := Data.record.inj made
  simp

/-- Under the key of each field of a written record is its value, and nothing if it has none. -/
theorem present_cases {fields : List (String × Option Data)} {motive : Data → Prop}
    (distinct : (fields.map (·.1)).Nodup)
    (record : ∀ written, (∀ field ∈ fields, written.lookup field.1 = field.2) →
      motive (.record written)) : motive (present fields) := by
  obtain ⟨written, made⟩ : ∃ written, present fields = .record written := ⟨_, rfl⟩
  rw [made]
  apply record
  intro field listed
  have unique : OneValue field.1 fields := oneValue_of_distinct distinct
  have unique' : OneValue field.1 written := by
    intro v w first second
    exact Option.some.inj
      (unique _ _ ((mem_present made).mp first) ((mem_present made).mp second))
  apply Option.ext
  intro v
  rw [lookup_eq_some_iff unique', mem_present made]
  constructor
  · intro filled
    exact unique _ _ listed filled
  · intro filled
    rw [← filled]
    exact listed

/-- A field is found unless it was removed, whatever was added under other keys and wherever. -/
theorem lookup_amended {sent added : List (String × β)} {removed : String → Bool}
    (unique : OneValue key sent) (other : ∀ field ∈ added, field.1 ≠ key)
    (amended : fields.Perm (sent.filter (fun field => !removed field.1) ++ added)) :
    fields.lookup key = if removed key then none else sent.lookup key := by
  have member (v : β) : (key, v) ∈ fields ↔ (key, v) ∈ sent ∧ removed key = false := by
    rw [amended.mem_iff, List.mem_append, List.mem_filter, Bool.not_eq_true']
    exact or_iff_left fun new => other _ new rfl
  cases gone : removed key with
  | true =>
    rw [if_pos rfl, List.lookup_eq_none_iff]
    rintro ⟨key', v⟩ listed
    rw [bne_iff_ne]
    rintro rfl
    rw [member, gone] at listed
    cases listed.2
  | false =>
    rw [if_neg Bool.false_ne_true]
    refine (lookup_congr unique fun v => ?_).symm
    rw [member, gone]
    exact (and_iff_left rfl).symm

end Records

section Names

variable {α : Type} {all : List α} {name : α → String} {f : Data → Option α}

/-- What has a name of its own is found by it. -/
theorem find_name (distinct : (all.map name).Nodup) {x : α} (listed : x ∈ all) :
    all.find? (name · == name x) = some x := by
  cases found : all.find? (name · == name x) with
  | none => exact absurd BEq.rfl (List.find?_eq_none.mp found x listed)
  | some y =>
    have holds := List.find?_some found
    have same : name y = name x := beq_iff_eq.mp holds
    rw [List.inj_on_of_nodup_map distinct (List.mem_of_find?_eq_some found) listed same]

theorem list_texts (name : α → String) (reads : ∀ x, f (.text (name x)) = some x) (xs : List α) :
    list? f (.texts (xs.map name)) = some xs := by
  have reading : f ∘ .text ∘ name = fun x => pure x := funext reads
  rw [texts, list?, List.map_map, List.mapM_map, reading, List.mapM_pure, List.map_id']
  rfl

end Names

section Optional

/-- A value that is not written as null is read back, and so is its absence. -/
theorem optional_map {α : Type} {f : Data → Option α} (write : α → Data)
    (reads : ∀ x, f (write x) = some x) (filled : ∀ x, write x ≠ .null) (value : Option α) :
    optional f (value.map write) = some value := by
  cases value with
  | none => rfl
  | some x =>
    rw [Option.map_some, optional.eq_3 _ _ (filled x), reads]
    rfl

theorem optional_text (value : Option String) : optional text? (value.map .text) = some value :=
  optional_map .text (fun _ => rfl) nofun value

theorem optional_bool (value : Option Bool) : optional bool? (value.map .bool) = some value :=
  optional_map .bool (fun _ => rfl) nofun value

theorem optional_texts (value : Option (List String)) :
    optional (list? text?) (value.map .texts) = some value := by
  apply optional_map .texts
  · intro xs
    simpa using list_texts id (fun _ => rfl) xs
  · exact nofun

end Optional

end SoqlAssist.Data
