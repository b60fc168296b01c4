import SoqlAssist.Proofs.Grammar.Shape

/-!
The operators of conditions. Below the node of an operator stand the tokens of one of the twelve
operators and nothing else: the second sign of a comparison is taken only if it makes an operator
with the first, and `NOT` only if `IN` follows.
-/
namespace SoqlAssist

/-- The operators by the kinds of their tokens, with their usual spelling. -/
def operatorForms : List (List TokenKind × String) :=
  [([.eq], "="), ([.notEq], "!="), ([.lt], "<"), ([.lt, .eq], "<="), ([.lt, .gt], "<>"),
    ([.gt], ">"), ([.gt, .eq], ">="), ([.LIKE], "LIKE"), ([.IN], "IN"), ([.NOT, .IN], "NOT IN"),
    ([.INCLUDES], "INCLUDES"), ([.EXCLUDES], "EXCLUDES")]

def Operates (labels : List Label) : Prop :=
  ∃ kinds ∈ operatorForms.map (·.1), labels = kinds.map .token

def Operated (kind : Nat → TokenKind) (F : Forest) : Prop :=
  F.Every fun r _ below => r = .comparisonOperator → Operates (below.labels kind)

namespace Grammar

def Takes (R : Reading) (s : List Nat) : Goal → List Label → Prop
  | .one k _, labels => peek (s.map R.kind) = k → k ≠ .eof → labels = [.token k]
  | .maybe ks, labels => labels = [] ∨ ∃ k ∈ ks, labels = [.token k]
  | _, _ => True

/-- What a goal leaves: operators with their tokens, and the token that the goal asks for. -/
structure Reads (R : Reading) (g : Goal) (s : List Nat) (F : Forest) (s' : List Nat) : Prop where
  operated : Operated R.kind F
  takes : Takes R s g (F.labels R.kind)

variable {R : Reading} {s s' : List Nat} {g : Goal} {F : Forest}

section Takes

variable {P : Goal → List Nat → Forest → List Nat → Prop}

theorem one_takes {k : TokenKind} {problem : Problem}
    (made : Made R P (R.moves (.one k problem) s) s [F] s') (next : peek (s.map R.kind) = k)
    (real : k ≠ .eof) : F.labels R.kind = [.token k] := by
  rcases made_cases made with ⟨its, planned, _⟩ | ⟨entered, its, p, rest, rfl, planned, made⟩ |
    ⟨rfl, _⟩
  · simp [plan, next] at planned
  · obtain rfl : R.kind p = k := next
    simp only [plan, BEq.rfl, if_true, Plan.shift.injEq] at planned
    obtain ⟨rfl, rfl⟩ := planned
    simp only [List.map_nil, List.nil_append, made_take, made_nil] at made
    obtain ⟨_, rfl, rfl, _⟩ := made
    rfl
  · exact absurd next.symm real

theorem maybe_takes {ks : List TokenKind} (made : Made R P (R.moves (.maybe ks) s) s [F] s') :
    F.labels R.kind = [] ∨ ∃ k ∈ ks, F.labels R.kind = [.token k] := by
  rcases made_cases made with ⟨its, planned, made⟩ | ⟨entered, its, p, rest, rfl, planned, made⟩ |
    ⟨_, rfl, _⟩
  · simp only [plan] at planned
    split at planned
    all_goals simp only [Plan.expand.injEq, reduceCtorEq] at planned
    subst planned
    simp only [List.map_nil, made_nil] at made
    exact .inl (by rw [made.1, Forest.labels])
  · simp only [plan] at planned
    split at planned
    all_goals simp only [Plan.shift.injEq, reduceCtorEq] at planned
    rename_i member
    obtain ⟨rfl, rfl⟩ := planned
    simp only [List.map_nil, List.nil_append, made_take, made_nil] at made
    obtain ⟨_, rfl, rfl, _⟩ := made
    exact .inr ⟨R.kind p, by simpa using member, rfl⟩
  · exact .inl rfl

end Takes

/-- The tokens of an operator, and those of its value. -/
theorem comparison_operated (made : Made R (Reads R) (R.moves .comparison s) s [F] s') :
    Operated R.kind F := by
  have compared {s₁ s₂ : List Nat} {g : Goal} {start p : Nat} {G V : Forest} {k : TokenKind}
      (kinds : List TokenKind) (first : R.kind p = k) (rest : G.labels R.kind = kinds.map .token)
      (listed : k :: kinds ∈ operatorForms.map (·.1)) (tokens : Operated R.kind G)
      (value : Reads R g s₁ V s₂) :
      Operated R.kind (.node .comparisonOperator start (.leaf p G) (V ++ .nil)) := by
    refine ⟨fun _ => ⟨_, listed, ?_⟩, tokens, ?_⟩
    · rw [Forest.labels, first, rest, List.map_cons]
    · rw [Forest.append_nil]
      exact value.operated
  rcases made_cases made with ⟨its, planned, made⟩ | ⟨entered, its, p, rest, rfl, planned, made⟩ |
    ⟨_, rfl, _⟩
  · simp only [plan, comparisonPlan] at planned
    split at planned
    all_goals try split at planned
    all_goals simp only [Plan.expand.injEq, reduceCtorEq] at planned
    all_goals
      subst planned
      simp only [List.map_cons, List.map_nil, made_report, made_nil] at made
      rw [made.1]
      trivial
  · simp only [plan, comparisonPlan] at planned
    split at planned
    all_goals try split at planned
    all_goals simp only [Plan.shift.injEq, reduceCtorEq] at planned
    all_goals obtain ⟨rfl, rfl⟩ := planned
    all_goals
      simp only [token, List.map_cons, List.map_nil, List.cons_append, List.nil_append,
        made_enter, made_take, made_goal, made_leave, made_nil] at made
    case h_3 | h_4 =>
      rename_i first
      obtain ⟨_, _, rfl, _, rfl, G, _, _, rfl, second, rfl, V, _, _, rfl, value, rfl, _⟩ := made
      rw [Forest.append_nil G]
      rcases second.takes with labels | ⟨k, member, labels⟩
      · exact compared [] first labels (by decide) second.operated value
      · refine compared [k] first labels ?_ second.operated value
        clear labels
        revert k
        decide
    case h_9.isTrue =>
      rename_i first next
      obtain ⟨_, _, rfl, _, rfl, G, _, _, rfl, second, rfl, V, _, _, rfl, value, rfl, _⟩ := made
      rw [Forest.append_nil G]
      have labels := second.takes (beq_iff_eq.mp next) (by decide)
      exact compared [.IN] first labels (by decide) second.operated value
    all_goals
      rename_i first
      obtain ⟨_, _, rfl, _, rfl, rfl, V, _, _, rfl, value, rfl, _⟩ := made
      exact compared [] first rfl (by decide) trivial value
  · trivial

theorem not_enters_operator (other : g ≠ .comparison) :
    .item (.enter .comparisonOperator) ∉ R.moves g s := by
  refine moves_cases (Q := fun moves => .item (.enter .comparisonOperator) ∉ moves)
    List.not_mem_nil fun k₁ k₂ => ?_
  cases g <;>
    simp only [plan, clausePlan, valuePlan, withPlan, failed] <;>
    (repeat' split) <;>
    simp_all [Plan.moves, token, callTail]

theorem reads_of_made (made : Made R (Reads R) (R.moves g s) s [F] s') : Reads R g s F s' := by
  constructor
  · by_cases comparison : g = .comparison
    · subst comparison
      exact comparison_operated made
    · refine every_of_made (fun _ _ _ _ reads => reads.operated) ?_ made F List.mem_cons_self
      rintro r entered p below rfl
      exact absurd entered (not_enters_operator comparison)
  · cases g with
    | one k problem => exact one_takes made
    | maybe ks => exact maybe_takes made
    | _ => trivial

end Grammar

end SoqlAssist
