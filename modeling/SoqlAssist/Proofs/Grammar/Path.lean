import SoqlAssist.Proofs.Grammar.Source

/-!
Paths as the grammar lays them out. Below a path stand a name, then dots and names in turn; only
behind the last dot can a name be missing, since a path ends there. Below a name stands the one
token that it is, or nothing where a name was expected and not found.
-/
namespace SoqlAssist

open Grammar

def nameKinds : List TokenKind := .identifier :: softKeywords

/-- The row goes on with dots and names in turn and ends behind a name or a dot. -/
inductive Continues : List Label → Prop where
  | nil : Continues []
  | dot : Continues [.token .dot]
  | name {labels : List Label} (rest : Continues labels) :
      Continues (.token .dot :: .rule .identifier :: labels)

def Traced : Rule → List Label → Prop
  | .field, labels => ∃ rest, labels = .rule .identifier :: rest ∧ Continues rest
  | .identifier, labels => labels = [] ∨ ∃ k ∈ nameKinds, labels = [.token k]
  | _, _ => True

/-- Every path and every name of the forest has below it what it must. -/
def Pathed (kind : Nat → TokenKind) (F : Forest) : Prop :=
  F.Every fun r _ below => Traced r (below.labels kind)

namespace Grammar

def Extends : Goal → List Label → Prop
  | .identifier, labels => labels = [.rule .identifier]
  | .dotted, labels => Continues labels
  | .afterDot, labels => labels = [] ∨ ∃ rest, labels = .rule .identifier :: rest ∧ Continues rest
  | _, _ => True

/-- A row that a goal leaves, with the paths in it laid out as they must be. -/
structure Paths (R : Reading) (g : Goal) (s : List Nat) (F : Forest) (s' : List Nat) : Prop where
  pathed : Pathed R.kind F
  extended : Extends g (F.labels R.kind)

variable {R : Reading} {s s' : List Nat} {g : Goal} {F : Forest}

theorem mem_nameKinds {k₁ k₂ : TokenKind} (name : atName k₁ k₂ = true) : k₁ ∈ nameKinds := by
  rw [atName, Bool.or_eq_true, Bool.and_eq_true, beq_iff_eq, List.contains_iff_mem] at name
  rcases name with rfl | ⟨soft, _⟩
  · exact List.mem_cons_self
  · exact List.mem_cons_of_mem _ soft

theorem identifier_pathed {P : Goal → List Nat → Forest → List Nat → Prop}
    (made : Made R P (R.moves .identifier s) s [F] s') : Pathed R.kind F := by
  rcases made_cases made with ⟨its, planned, made⟩ | ⟨entered, its, p, rest, rfl, planned, made⟩ |
    ⟨_, rfl, _⟩
  · simp only [plan, failed] at planned
    split at planned
    all_goals simp only [Plan.expand.injEq, reduceCtorEq] at planned
    subst planned
    simp only [List.map_cons, List.map_nil, made_enter, made_report, made_leave, made_nil] at made
    obtain ⟨_, _, rfl, rfl, rfl, _⟩ := made
    exact ⟨.inl rfl, trivial, trivial⟩
  · simp only [plan, failed] at planned
    split at planned
    all_goals simp only [Plan.shift.injEq, reduceCtorEq] at planned
    rename_i name
    obtain ⟨rfl, rfl⟩ := planned
    simp only [List.map_cons, List.map_nil, List.cons_append, List.nil_append, made_enter,
      made_take, made_leave, made_nil] at made
    obtain ⟨_, _, rfl, _, rfl, rfl, rfl, _⟩ := made
    exact ⟨.inr ⟨R.kind p, mem_nameKinds name, rfl⟩, trivial, trivial⟩
  · trivial

section Paths

variable (made : Made R (Paths R) (R.moves g s) s [F] s')
include made

theorem field_pathed (goal : g = .field) : Pathed R.kind F := by
  subst goal
  rw [moves_expand rfl] at made
  simp only [List.map_cons, List.map_nil, made_enter, made_goal, made_leave, made_nil] at made
  obtain ⟨_, _, rfl, A, _, _, rfl, name, B, _, _, rfl, more, rfl, rfl, _⟩ := made
  refine ⟨⟨B.labels R.kind, ?_, more.extended⟩, ?_, trivial⟩
  · rw [Forest.append_nil, Forest.labels_append, name.extended]
    rfl
  · exact Forest.every_append.mpr ⟨name.pathed, Forest.every_append.mpr ⟨more.pathed, trivial⟩⟩

theorem dotted_continues (goal : g = .dotted) : Continues (F.labels R.kind) := by
  subst goal
  rcases made_cases made with ⟨its, planned, made⟩ | ⟨entered, its, p, rest, rfl, planned, made⟩ |
    ⟨_, rfl, _⟩
  · simp only [plan] at planned
    split at planned
    all_goals simp only [Plan.expand.injEq, reduceCtorEq] at planned
    subst planned
    simp only [List.map_nil, made_nil] at made
    rw [made.1]
    exact .nil
  · simp only [plan] at planned
    split at planned
    all_goals simp only [Plan.shift.injEq, reduceCtorEq] at planned
    rename_i dot
    obtain ⟨rfl, rfl⟩ := planned
    simp only [List.map_cons, List.map_nil, List.nil_append, made_take, made_goal,
      made_nil] at made
    obtain ⟨_, rfl, A, _, _, rfl, more, rfl, _⟩ := made
    rw [Forest.append_nil, Forest.labels, beq_iff_eq.mp dot]
    rcases more.extended with none | ⟨labels, same, continued⟩
    · rw [none]
      exact .dot
    · rw [same]
      exact .name continued
  · exact .nil

theorem afterDot_continues (goal : g = .afterDot) :
    F.labels R.kind = [] ∨
      ∃ rest, F.labels R.kind = .rule .identifier :: rest ∧ Continues rest := by
  subst goal
  rcases made_cases made with ⟨its, planned, made⟩ | ⟨entered, its, p, rest, rfl, planned, made⟩ |
    ⟨_, rfl, _⟩
  · simp only [plan] at planned
    split at planned
    all_goals
      simp only [Plan.expand.injEq] at planned
      subst planned
    · simp only [List.map_cons, List.map_nil, made_goal, made_nil] at made
      obtain ⟨A, _, _, rfl, name, B, _, _, rfl, more, rfl, _⟩ := made
      refine .inr ⟨B.labels R.kind, ?_, more.extended⟩
      rw [Forest.append_nil, Forest.labels_append, name.extended]
      rfl
    · simp only [List.map_cons, List.map_nil, made_report, made_nil] at made
      exact .inl (by rw [made.1, Forest.labels])
  · simp only [plan] at planned
    split at planned <;> simp at planned
  · exact .inl rfl

end Paths

theorem not_enters_path (field : g ≠ .field) (identifier : g ≠ .identifier) :
    ∀ r, .item (.enter r) ∈ R.moves g s → r ≠ .field ∧ r ≠ .identifier := by
  refine moves_cases
    (Q := fun moves => ∀ r, .item (.enter r) ∈ moves → r ≠ .field ∧ r ≠ .identifier)
    (by simp) fun k₁ k₂ => ?_
  cases g <;>
    simp only [plan, clausePlan, comparisonPlan, valuePlan, withPlan, failed] <;>
    (repeat' split) <;>
    simp_all [Plan.moves, token, callTail]

theorem traced_of_other {r : Rule} {labels : List Label} (other : r ≠ .field ∧ r ≠ .identifier) :
    Traced r labels := by
  cases r <;> simp at other <;> trivial

theorem paths_of_made (made : Made R (Paths R) (R.moves g s) s [F] s') : Paths R g s F s' := by
  constructor
  · by_cases field : g = .field
    · exact field_pathed made field
    by_cases identifier : g = .identifier
    · subst identifier
      exact identifier_pathed made
    · exact every_of_made (fun _ _ _ _ paths => paths.pathed)
        (fun r entered _ _ => traced_of_other (not_enters_path field identifier r entered)) made F
        List.mem_cons_self
  · cases g with
    | identifier => exact identifier_leading made
    | dotted => exact dotted_continues made rfl
    | afterDot => exact afterDot_continues made rfl
    | _ => trivial

end Grammar

end SoqlAssist
