import SoqlAssist.Proofs.Query.Leaves

/-!
How far the reader gets. When it has read a goal, it stands before the tokens that the goal leaves;
so where a query ends can be seen on the reader as on the tree. The error for what is left over
behind a query is the last one.
-/
namespace SoqlAssist

open Grammar Parse

namespace Reader

variable {tokens : TokenStream} {r : Reader} {g : Goal} {stack items : List Item}
  {entered : List Rule} {rows : List Forest} {F : Forest} {s s' : List Nat}

section Run

theorem run_append (r : Reader) (items stack : List Item) :
    r.run (items ++ stack) = (r.run items).run stack := by
  induction r, items using Reader.run.induct with
  | case1 r => rw [run, List.nil_append]
  | case2 r rule items ih => rw [List.cons_append, run, ih, run]
  | case3 r items ih => rw [List.cons_append, run, ih, run]
  | case4 r p items ih => rw [List.cons_append, run, ih, run]
  | case5 r items ih => rw [List.cons_append, run, ih, run]
  | case6 r g items its planned ih =>
    rw [List.cons_append, run_goal_expand planned, ← List.append_assoc, ih,
      run_goal_expand planned]
  | case7 r g items entered its planned last ih =>
    rw [List.cons_append, run_goal_shift planned, if_pos last, ih, run_goal_shift planned,
      if_pos last]
  | case8 r g items entered its planned more ih =>
    rw [List.cons_append, run_goal_shift planned, if_neg more, ← List.append_assoc, ih,
      run_goal_shift planned, if_neg more]

/-- What the operations of the reader keep is kept by all that it does. -/
theorem kept_run {P : Reader → Prop} (enter : ∀ r rule, P r → P (r.enter rule))
    (leave : ∀ r, P r → P r.leave) (report : ∀ r p, P r → P (r.report p))
    (bump : ∀ r, P r → P r.bump) (start : P r) : P (r.run stack) := by
  have enterAll {r : Reader} (entered : List Rule) (start : P r) : P (r.enterAll entered) := by
    induction entered generalizing r with
    | nil => exact start
    | cons rule entered ih => exact ih (enter r rule start)
  induction r, stack using Reader.run.induct with
  | case1 r => rwa [run]
  | case2 r rule stack ih =>
    rw [run]
    exact ih (enter r rule start)
  | case3 r stack ih =>
    rw [run]
    exact ih (leave r start)
  | case4 r p stack ih =>
    rw [run]
    exact ih (report r p start)
  | case5 r stack ih =>
    rw [run]
    exact ih (bump r start)
  | case6 r g stack items planned ih =>
    rw [run_goal_expand planned]
    exact ih start
  | case7 r g stack entered items planned last ih =>
    rw [run_goal_shift planned, if_pos last]
    exact ih start
  | case8 r g stack entered items planned more ih =>
    rw [run_goal_shift planned, if_neg more]
    exact ih (bump _ (enterAll entered start))

end Run

def ahead (r : Reader) : List Nat := r.outline.shown.map (·.1)

/-- The reader reads the tokens, stands on a visible one or at the end, and has the mark at the end
before it. -/
structure Reads (tokens : TokenStream) (r : Reader) : Prop where
  same : r.tokens = tokens
  settled : r.Settled
  mark : r.outline.mark = (Outline.ofTokens tokens).mark

section Steps

theorem reads_enter (reads : r.Reads tokens) (rule : Rule) : (r.enter rule).Reads tokens :=
  ⟨reads.same, ⟨reads.settled.within, reads.settled.shown⟩, reads.mark⟩

theorem reads_leave (reads : r.Reads tokens) : r.leave.Reads tokens :=
  ⟨reads.same, ⟨reads.settled.within, reads.settled.shown⟩, reads.mark⟩

theorem reads_report (reads : r.Reads tokens) (p : Problem) : (r.report p).Reads tokens :=
  ⟨by rw [report_eq, reads.same], settled_report reads.settled p,
    by rw [outline_report, reads.mark]⟩

theorem reads_bump (reads : r.Reads tokens) : r.bump.Reads tokens := by
  refine ⟨by rw [bump_tokens, reads.same], settled_bump reads.settled, ?_⟩
  rw [← reads.mark]
  by_cases last : r.peek = .eof
  · rw [outline_of_end last]
  · rw [outline_bump reads.settled last]

theorem reads_enterAll (reads : r.Reads tokens) (entered : List Rule) :
    (r.enterAll entered).Reads tokens := by
  rw [enterAll_eq]
  exact ⟨reads.same, ⟨reads.settled.within, reads.settled.shown⟩, reads.mark⟩

theorem reads_run (reads : r.Reads tokens) (stack : List Item) : (r.run stack).Reads tokens :=
  kept_run (P := Reads tokens) (fun _ rule reads => reads_enter reads rule)
    (fun _ => reads_leave) (fun _ p reads => reads_report reads p) (fun _ => reads_bump) reads

theorem reads_ofTokens (tokens : TokenStream) : (ofTokens tokens).Reads tokens :=
  ⟨rfl, settled_ofTokens tokens, by rw [outline_ofTokens]⟩

theorem kinds_ahead (r : Reader) :
    r.outline.shown.map (·.2) = r.ahead.map r.tokens.kindAt := by
  rw [ahead, List.map_map]
  apply List.map_congr_left
  rintro ⟨i, k⟩ member
  obtain ⟨j, t, rfl, found, _, rfl⟩ := mem_visible.mp ((List.takeWhile_sublist _).subset member)
  rw [List.getElem?_drop, Array.getElem?_toList] at found
  simp [TokenStream.kindAt, found]

theorem peek_ahead (settled : r.Settled) : r.peek = Grammar.peek (r.ahead.map r.tokens.kindAt) := by
  rw [peek_eq settled, kinds_ahead]

theorem plan_ahead (settled : r.Settled) : plan g r.peek (r.peekNth 1) =
    plan g (Grammar.peek (r.ahead.map r.tokens.kindAt))
      (Grammar.peek ((r.ahead.map r.tokens.kindAt).drop 1)) := by
  rw [plan_seen settled, kinds_ahead]

theorem ahead_eq_nil_iff (settled : r.Settled) : r.ahead = [] ↔ r.peek = .eof := by
  constructor
  · intro none
    rw [peek_ahead settled, none]
    rfl
  · intro last
    rw [ahead, shown_nil settled last]
    rfl

theorem ahead_bump (settled : r.Settled) (more : r.peek ≠ .eof) :
    r.ahead = r.position :: r.bump.ahead := by
  rw [ahead, outline_bump settled more]
  rfl

theorem ahead_enterAll (r : Reader) (entered : List Rule) :
    (r.enterAll entered).ahead = r.ahead := by
  rw [ahead, outline_enterAll, ahead]

end Steps

/-- A reader with the tokens `s` left has the tokens `s'` left when it has read the goal. -/
def Reaches (tokens : TokenStream) (g : Goal) (s : List Nat) (_ : Forest) (s' : List Nat) : Prop :=
  g ≠ .query → ∀ r : Reader, r.Reads tokens → r.ahead = s → (r.run [.goal g]).ahead = s'

section Goals

theorem ahead_items (unmarked : .endMark ∉ items) (inner : .goal .query ∉ items)
    (made : Made (.ofTokens tokens) (Reaches tokens) (items.map .item) s rows s')
    (reads : r.Reads tokens) (left : r.ahead = s) : (r.run items).ahead = s' := by
  induction items generalizing r s rows with
  | nil =>
    obtain ⟨_, rfl⟩ := made
    rwa [run]
  | cons x items ih =>
    have unmarked' : .endMark ∉ items := fun member => unmarked (List.mem_cons_of_mem _ member)
    have inner' : .goal .query ∉ items := fun member => inner (List.mem_cons_of_mem _ member)
    cases x with
    | enter rule =>
      obtain ⟨_, _, _, _, made⟩ := made
      rw [run]
      exact ih unmarked' inner' made (reads_enter reads rule) left
    | leave =>
      obtain ⟨_, _, made⟩ := made
      rw [run]
      exact ih unmarked' inner' made (reads_leave reads) left
    | report p =>
      have same : (r.report p).ahead = s := by rwa [ahead, outline_report]
      rw [run]
      exact ih unmarked' inner' made (reads_report reads p) same
    | endMark => exact absurd List.mem_cons_self unmarked
    | goal g =>
      obtain ⟨_, s₁, _, _, _, goal, made⟩ := made
      have other : g ≠ .query := by
        rintro rfl
        exact inner List.mem_cons_self
      rw [← List.singleton_append, run_append]
      exact ih unmarked' inner' made (reads_run reads _) (goal other r reads left)

theorem made_behind {p : Nat} (made : Made (.ofTokens tokens) (Reaches tokens)
      (entered.map (fun rule => .item (.enter rule)) ++ .take :: items.map .item) (p :: s)
      rows s') :
    ∃ rows, Made (.ofTokens tokens) (Reaches tokens) (items.map .item) s rows s' := by
  induction entered generalizing rows with
  | nil =>
    obtain ⟨_, _, _, _, same, _, made⟩ := made
    obtain ⟨rfl, rfl⟩ := List.cons.inj same
    exact ⟨_, made⟩
  | cons rule entered ih =>
    obtain ⟨_, _, _, _, made⟩ := made
    exact ih made

theorem reaches_of_made (made : Made (.ofTokens tokens) (Reaches tokens)
    ((Reading.ofTokens tokens).moves g s) s [F] s') : Reaches tokens g s F s' := by
  intro inner r reads left
  have seen := plan_ahead (g := g) reads.settled
  rw [reads.same, left] at seen
  have unmarked := endMark_not_mem_plan inner r.peek (r.peekNth 1)
  have nested := query_not_mem_plan g r.peek (r.peekNth 1)
  rcases made_cases made with ⟨its, planned, made⟩ | ⟨entered, its, p, rest, rfl, planned, made⟩ |
    ⟨rfl, _, rfl, entered, its, planned⟩
  · replace planned : plan g r.peek (r.peekNth 1) = .expand its := seen.trans planned
    rw [planned] at unmarked nested
    rw [run_goal_expand planned, List.append_nil]
    exact ahead_items unmarked nested made reads left
  · replace planned : plan g r.peek (r.peekNth 1) = .shift entered its := seen.trans planned
    rw [planned] at unmarked nested
    have more : r.peek ≠ .eof := by
      intro last
      rw [(ahead_eq_nil_iff reads.settled).mpr last] at left
      exact absurd left (by simp)
    have step := ahead_bump (reads_enterAll reads entered).settled (by rwa [enterAll_peek])
    rw [ahead_enterAll, left] at step
    obtain ⟨_, made⟩ := made_behind made
    rw [run_goal_shift planned, if_neg more, List.append_nil]
    exact ahead_items unmarked nested made (reads_bump (reads_enterAll reads entered))
      (List.cons.inj step).2.symm
  · replace planned : plan g r.peek (r.peekNth 1) = .shift entered its := seen.trans planned
    have last := (ahead_eq_nil_iff reads.settled).mp left
    rw [run_goal_shift planned, if_pos last, run]
    exact left

end Goals

/-- The reader behind the query that a stream starts with. -/
def behindQuery (tokens : TokenStream) : Reader :=
  (ofTokens tokens).run [.enter .query, .goal .innerQuery]

section Query

theorem run_goal_query (tokens : TokenStream) : (ofTokens tokens).run [.goal .query] =
    (behindQuery tokens).run [.goal .trailing, .endMark, .leave] := by
  rw [run_goal_expand rfl, behindQuery, ← run_append]
  rfl

theorem reads_behindQuery (tokens : TokenStream) : (behindQuery tokens).Reads tokens :=
  reads_run (reads_ofTokens tokens) _

theorem ahead_behindQuery
    (reaches : Reaches tokens .innerQuery ((Outline.ofTokens tokens).shown.map (·.1)) F s) :
    (behindQuery tokens).ahead = s := by
  rw [behindQuery, run]
  apply reaches (by simp) _ (reads_enter (reads_ofTokens tokens) .query)
  exact congrArg (fun outline => outline.shown.map (·.1)) (outline_ofTokens tokens)

/-- The reader stands at the first of the tokens that are left, the mark at the end included. -/
theorem position_of_ahead {z : Nat} {tail : List Nat} (reads : r.Reads tokens)
    (left : r.ahead ++ (Outline.ofTokens tokens).mark.toList = z :: tail) : r.position = z := by
  have place : r.position = r.ahead.headD (r.outline.mark.getD r.tokens.size) :=
    position_eq reads.settled
  rw [place, reads.mark]
  cases ahead : r.ahead with
  | cons p rest =>
    rw [ahead] at left
    exact (List.cons.inj left).1
  | nil =>
    rw [ahead, List.nil_append] at left
    have marked : (Outline.ofTokens tokens).mark = some z := by
      apply Option.mem_toList.mp
      rw [left]
      exact List.mem_cons_self
    rw [marked]
    rfl

theorem back_report (r : Reader) (p : Problem) :
    (r.report p).errors.back?.map (·.position) = some r.position := by
  rw [report]
  split
  · rename_i known
    obtain ⟨e, last, same⟩ := (Option.any_eq_true _ _).mp known
    rw [last, Option.map_some, of_decide_eq_true same]
  · rw [Array.back?_push, Option.map_some, position_describe]

/-- What is left over is taken without a further error. -/
theorem errors_skipRest (r : Reader) :
    (r.run [.goal .skipRest, .endMark, .leave]).errors = r.errors := by
  by_cases last : r.peek = .eof
  · have planned : plan .skipRest r.peek (r.peekNth 1) = .expand [] := by simp [plan, last]
    rw [run_goal_expand planned, List.nil_append, run, run, run]
    exact bump_errors r
  · have planned : plan .skipRest r.peek (r.peekNth 1) = .shift [] [.goal .skipRest] := by
      simp [plan, last]
    have shorter := left_bump_lt last
    rw [run_goal_shift planned, if_neg last, ← bump_errors r]
    exact errors_skipRest r.bump
termination_by r.left

/-- If anything but the end is left over behind the query, the last error is recorded there. -/
theorem last_error (more : (behindQuery tokens).peek ≠ .eof) :
    (parseTokens tokens).errors.getLast?.map (·.position) =
      some (behindQuery tokens).position := by
  have planned : plan .trailing (behindQuery tokens).peek ((behindQuery tokens).peekNth 1) =
      .expand [.report .trailing, .goal .skipRest] := by simp [plan, more]
  have recorded : (parseTokens tokens).errors =
      ((behindQuery tokens).report .trailing).errors.toList := by
    rw [← errors_skipRest, parseTokens, run_goal_query, run_goal_expand planned,
      List.cons_append, run]
    rfl
  rw [recorded, Array.getLast?_toList, back_report]

end Query

end Reader

end SoqlAssist
