import SoqlAssist.Grammar.Rank

/-!
Reading without positions. The kinds of the visible tokens before the end are enough to know, in
order, which rules are entered and left, where a token is taken and what is missing; the place of
each event is the number of tokens taken before it. One equation for each instruction says what it
adds. A run without problems is clean; whether it is depends, step by step, on the plan alone.
-/
namespace SoqlAssist.Grammar

inductive Event where
  | enter (rule : Rule)
  /-- Takes the next visible token. -/
  | token
  /-- Takes the mark at the end of the text. -/
  | endMark
  | leave
  | problem (p : Problem)
  deriving DecidableEq, Repr

/-- The kind of the next visible token, `eof` at the end. -/
def peek : List TokenKind → TokenKind
  | [] => .eof
  | k :: _ => k

/-- The events of carrying out instructions on the visible tokens that remain. -/
def run (rest : List TokenKind) (stack : List Item) : List Event :=
  match stack with
  | [] => []
  | .enter rule :: stack => .enter rule :: run rest stack
  | .leave :: stack => .leave :: run rest stack
  | .report p :: stack => .problem p :: run rest stack
  | .endMark :: stack => .endMark :: run rest stack
  | .goal g :: stack =>
    match h : plan g (peek rest) (peek (rest.drop 1)) with
    | .expand items => run rest (items ++ stack)
    | .shift entered items =>
      match rest with
      | [] => run [] stack
      | _ :: rest => entered.map .enter ++ .token :: run rest (items ++ stack)
termination_by shiftRank * rest.length + rankOf stack
decreasing_by
  · exact Nat.add_lt_add_left (rankOf_lt_cons _ _) _
  · exact Nat.add_lt_add_left (rankOf_lt_cons _ _) _
  · exact Nat.add_lt_add_left (rankOf_lt_cons _ _) _
  · exact Nat.add_lt_add_left (rankOf_lt_cons _ _) _
  · exact Nat.add_lt_add_left (rankOf_expand_append_lt h) _
  · exact Nat.add_lt_add_left (rankOf_lt_cons _ _) _
  · rw [List.length_cons, Nat.mul_succ, Nat.add_assoc]
    exact Nat.add_lt_add_left (rankOf_shift_append_lt h) _

def events (kinds : List TokenKind) : List Event :=
  run kinds [Goal.query]

def Plan.items : Plan → List Item
  | .expand items | .shift _ items => items

variable {g : Goal} {k : TokenKind} {rest : List TokenKind} {stack items : List Item}
  {entered : List Rule} {rule : Rule} {p : Problem}

@[simp] theorem peek_nil : peek [] = .eof := rfl

@[simp] theorem peek_cons : peek (k :: rest) = k := rfl

@[simp] theorem run_nil : run rest [] = [] := by rw [run]

@[simp] theorem run_enter : run rest (.enter rule :: stack) = .enter rule :: run rest stack := by
  rw [run]

@[simp] theorem run_leave : run rest (.leave :: stack) = .leave :: run rest stack := by rw [run]

@[simp] theorem run_report : run rest (.report p :: stack) = .problem p :: run rest stack := by
  rw [run]

@[simp] theorem run_endMark : run rest (.endMark :: stack) = .endMark :: run rest stack := by
  rw [run]

theorem run_expand (h : plan g (peek rest) (peek (rest.drop 1)) = .expand items) :
    run rest (.goal g :: stack) = run rest (items ++ stack) := by
  rw [run]
  split
  · rename_i found
    obtain rfl := Plan.expand.inj (h.symm.trans found)
    rfl
  · rename_i found
    exact absurd (h.symm.trans found) (by simp)

theorem run_shift (h : plan g k (peek rest) = .shift entered items) :
    run (k :: rest) (.goal g :: stack) =
      entered.map .enter ++ .token :: run rest (items ++ stack) := by
  have start : plan g (peek (k :: rest)) (peek ((k :: rest).drop 1)) = .shift entered items := h
  rw [run]
  split
  · rename_i found
    exact absurd (start.symm.trans found) (by simp)
  · rename_i found
    obtain ⟨rfl, rfl⟩ := Plan.shift.inj (start.symm.trans found)
    rfl

/-- At the end of the text there is no token to take. -/
theorem run_shift_nil (h : plan g .eof .eof = .shift entered items) :
    run [] (.goal g :: stack) = run [] stack := by
  have start : plan g (peek []) (peek (([] : List TokenKind).drop 1)) = .shift entered items := h
  rw [run]
  split
  · rename_i found
    exact absurd (start.symm.trans found) (by simp)
  · rfl

section Marks

/-- Behind the end nothing is planned: what stands there does not matter. -/
theorem plan_end (g : Goal) (k : TokenKind) : plan g .eof k = plan g .eof .eof := by
  cases g <;> rfl

/-- Only a whole query takes the mark at the end. -/
theorem endMark_not_mem_plan (inner : g ≠ .query) (k₁ k₂ : TokenKind) :
    Item.endMark ∉ (plan g k₁ k₂).items := by
  cases g <;>
    simp only [plan, clausePlan, comparisonPlan, valuePlan, withPlan, failed] <;>
    (repeat' split) <;>
    simp_all [Plan.items, token, callTail]

/-- No query is read for a part of a query. -/
theorem query_not_mem_plan (g : Goal) (k₁ k₂ : TokenKind) :
    Item.goal .query ∉ (plan g k₁ k₂).items := by
  cases g <;>
    simp only [plan, clausePlan, comparisonPlan, valuePlan, withPlan, failed] <;>
    (repeat' split) <;>
    simp_all [Plan.items, token, callTail]

/-- The mark at the end is reached only through what skips all tokens before it. -/
def Guarded : List Item → Prop
  | [] | .goal .trailing :: _ | .goal .skipRest :: _ => True
  | .endMark :: _ => False
  | _ :: stack => Guarded stack

theorem guarded_append (unmarked : Item.endMark ∉ items) (guarded : Guarded stack) :
    Guarded (items ++ stack) := by
  induction items with
  | nil => exact guarded
  | cons x items ih =>
    have rest := ih fun member => unmarked (List.mem_cons_of_mem _ member)
    cases x with
    | endMark => exact absurd List.mem_cons_self unmarked
    | goal g => cases g <;> first | exact trivial | exact rest
    | _ => exact rest

theorem guarded_plan {k₁ : TokenKind} (more : k₁ ≠ .eof)
    (guarded : Guarded (.goal g :: stack)) (k₂ : TokenKind) :
    Guarded ((plan g k₁ k₂).items ++ stack) := by
  by_cases whole : g = .query ∨ g = .trailing ∨ g = .skipRest
  · rcases whole with rfl | rfl | rfl <;> simp [plan, more, Plan.items, Guarded]
  · have rest : Guarded stack := by
      cases g <;> first | exact guarded | simp at whole
    exact guarded_append (endMark_not_mem_plan (fun same => whole (.inl same)) k₁ k₂) rest

end Marks

def Clean (events : List Event) : Prop := ∀ p, Event.problem p ∉ events

@[simp] theorem clean_nil : Clean [] := fun _ => List.not_mem_nil

@[simp] theorem clean_enter {events : List Event} :
    Clean (.enter rule :: events) ↔ Clean events := by
  simp [Clean]

@[simp] theorem clean_leave {events : List Event} : Clean (.leave :: events) ↔ Clean events := by
  simp [Clean]

@[simp] theorem clean_token {events : List Event} : Clean (.token :: events) ↔ Clean events := by
  simp [Clean]

@[simp] theorem clean_endMark {events : List Event} :
    Clean (.endMark :: events) ↔ Clean events := by
  simp [Clean]

@[simp] theorem not_clean_problem {events : List Event} : ¬ Clean (.problem p :: events) :=
  fun clean => clean p List.mem_cons_self

@[simp] theorem clean_enters {events : List Event} :
    Clean (entered.map .enter ++ events) ↔ Clean events := by
  induction entered with
  | nil => rfl
  | cons rule entered ih => simpa using ih

theorem clean_expand (h : plan g (peek rest) (peek (rest.drop 1)) = .expand items) :
    Clean (run rest (.goal g :: stack)) ↔ Clean (run rest (items ++ stack)) := by
  rw [run_expand h]

theorem clean_shift (h : plan g k (peek rest) = .shift entered items) :
    Clean (run (k :: rest) (.goal g :: stack)) ↔ Clean (run rest (items ++ stack)) := by
  rw [run_shift h, clean_enters, clean_token]

end SoqlAssist.Grammar
