import SoqlAssist.Proofs.Grammar.Outline
import SoqlAssist.Query.Parsed

/-!
The reader and the outline of its stream. At each position the reader sees what is left of the
outline: the token it stands on is the first one that is left, the next visible one is the second,
and stepping over a token with the hidden tokens behind it leaves the others. So the events of
reading the outline without positions, put in their places, are what the reader does.
-/
namespace SoqlAssist

open Grammar Parse

variable {tokens : TokenStream} {i n : Nat}

namespace TokenStream

def visibleFrom (tokens : TokenStream) (i : Nat) : List (Nat × TokenKind) :=
  visible i (tokens.toList.drop i)

theorem visibleFrom_cons (inside : i < tokens.size) : tokens.visibleFrom i =
    if tokens[i].isHidden then tokens.visibleFrom (i + 1)
    else (i, tokens[i].kind) :: tokens.visibleFrom (i + 1) := by
  have listed : i < tokens.toList.length := by simpa using inside
  rw [visibleFrom, List.drop_eq_getElem_cons listed, visible, Array.getElem_toList]
  rfl

theorem visibleFrom_of_le (past : tokens.size ≤ i) : tokens.visibleFrom i = [] := by
  rw [visibleFrom, List.drop_eq_nil_of_le (by simpa using past)]
  rfl

theorem visibleFrom_skipHidden (tokens : TokenStream) (i : Nat) :
    tokens.visibleFrom (tokens.skipHidden i) = tokens.visibleFrom i := by
  induction i using skipHidden.induct tokens with
  | case1 i hidden ih =>
    obtain ⟨inside, kind⟩ := exists_hidden hidden
    rw [skipHidden, if_pos hidden, ih, visibleFrom_cons inside, if_pos kind]
  | case2 i shown => rw [skipHidden, if_neg shown]

theorem skipHidden_le {i : Nat} (within : i ≤ tokens.size) : tokens.skipHidden i ≤ tokens.size := by
  induction i using skipHidden.induct tokens with
  | case1 i hidden ih =>
    obtain ⟨inside, _⟩ := exists_hidden hidden
    rw [skipHidden, if_pos hidden]
    exact ih inside
  | case2 i shown => rwa [skipHidden, if_neg shown]

theorem skipHidden_shown (tokens : TokenStream) (i : Nat) :
    tokens[tokens.skipHidden i]?.any Token.isHidden = false := by
  induction i using skipHidden.induct tokens with
  | case1 i hidden ih => rwa [skipHidden, if_pos hidden]
  | case2 i shown =>
    rw [skipHidden, if_neg shown]
    exact Bool.eq_false_iff.mpr shown

end TokenStream

/-- Only the kind of the first token that is left is seen, or `eof`. -/
theorem peek_takeWhile (seen : List (Nat × TokenKind)) :
    Grammar.peek ((seen.takeWhile (·.2 != .eof)).map (·.2)) = (seen[0]?.map (·.2)).getD .eof := by
  cases seen with
  | nil => rfl
  | cons x seen =>
    by_cases last : x.2 = .eof
    · rw [List.takeWhile_cons_of_neg (by simp [last])]
      exact last.symm
    · rw [List.takeWhile_cons_of_pos (by simpa using last)]
      rfl

theorem position_describe (tokens : TokenStream) (i : Nat) (p : Problem) :
    (describe tokens i p).position = i := by
  rw [describe]
  split
  · split <;> rfl
  · rfl

namespace Reader

variable {r : Reader} {g : Goal} {stack items : List Item} {entered : List Rule} {rule : Rule}
  {p : Problem}

def seen (r : Reader) : List (Nat × TokenKind) :=
  r.tokens.visibleFrom r.position

def outline (r : Reader) : Outline :=
  let mark := (r.seen.find? (·.2 == .eof)).map (·.1)
  ⟨r.seen.takeWhile (·.2 != .eof), mark, mark.getD r.tokens.size⟩

/-- The reader stands on a visible token or at the end. -/
structure Settled (r : Reader) : Prop where
  within : r.position ≤ r.tokens.size
  shown : r.tokens[r.position]?.any Token.isHidden = false

section Outline

theorem shown_eq (r : Reader) : r.outline.shown = r.seen.takeWhile (·.2 != .eof) := rfl

theorem seen_cons (settled : r.Settled) (inside : r.position < r.tokens.size) :
    r.seen = (r.position, r.peek) :: r.tokens.visibleFrom (r.position + 1) := by
  have shown : r.tokens[r.position].isHidden = false := by
    simpa [Array.getElem?_eq_getElem inside] using settled.shown
  have kind : r.peek = r.tokens[r.position].kind := by
    rw [Reader.peek, TokenStream.kindAt, Array.getElem?_eq_getElem inside]
  rw [seen, TokenStream.visibleFrom_cons inside, shown, kind]
  rfl

theorem seen_nil (past : r.tokens.size ≤ r.position) : r.seen = [] :=
  TokenStream.visibleFrom_of_le past

theorem peek_eq (settled : r.Settled) : r.peek = Grammar.peek (r.outline.shown.map (·.2)) := by
  rw [shown_eq, peek_takeWhile]
  by_cases inside : r.position < r.tokens.size
  · rw [seen_cons settled inside]
    rfl
  · rw [seen_nil (Nat.not_lt.mp inside), Reader.peek, TokenStream.kindAt,
      Array.getElem?_eq_none (Nat.not_lt.mp inside)]
    rfl

/-- Before the end the first token that is left is the one that the reader stands on. -/
theorem shown_cons (settled : r.Settled) (more : r.peek ≠ .eof) :
    r.outline.shown = (r.position, r.peek) ::
      (r.tokens.visibleFrom (r.position + 1)).takeWhile (·.2 != .eof) := by
  rw [shown_eq, seen_cons settled (TokenStream.lt_size_of_kindAt more),
    List.takeWhile_cons_of_pos (by simpa using more)]

/-- At the end no token is left, whatever stands behind the mark. -/
theorem shown_nil (settled : r.Settled) (last : r.peek = .eof) : r.outline.shown = [] := by
  by_cases inside : r.position < r.tokens.size
  · rw [shown_eq, seen_cons settled inside, List.takeWhile_cons_of_neg (by simp [last])]
  · rw [shown_eq, seen_nil (Nat.not_lt.mp inside)]
    rfl

theorem position_eq (settled : r.Settled) :
    r.position = (r.outline.shown.map (·.1)).headD r.outline.ending := by
  by_cases last : r.peek = .eof
  · rw [shown_nil settled last]
    by_cases inside : r.position < r.tokens.size
    · rw [outline, seen_cons settled inside, List.find?_cons_of_pos (by simp [last])]
      rfl
    · rw [outline, seen_nil (Nat.not_lt.mp inside)]
      exact Nat.le_antisymm settled.within (Nat.not_lt.mp inside)
  · rw [shown_cons settled last]
    rfl

/-- Before the end the second token that is left is the next visible one. -/
theorem peekNth_eq (settled : r.Settled) (more : r.peek ≠ .eof) :
    r.peekNth 1 = Grammar.peek ((r.outline.shown.map (·.2)).drop 1) := by
  rw [shown_cons settled more, List.map_cons, List.drop_succ_cons, List.drop_zero, peek_takeWhile,
    ← List.getElem?_map, TokenStream.visibleFrom, visible_kinds, List.getElem?_map, peekNth]
  cases ((r.tokens.toList.drop (r.position + 1)).filter (!·.isHidden))[0]? <;> rfl

theorem settled_bump (settled : r.Settled) : r.bump.Settled := by
  by_cases last : r.peek = .eof
  · rw [bump_of_end r last]
    exact ⟨settled.within, settled.shown⟩
  · rw [bump_of_next r last]
    exact ⟨TokenStream.skipHidden_le (TokenStream.lt_size_of_kindAt last),
      TokenStream.skipHidden_shown r.tokens _⟩

/-- Stepping over a token leaves the others and the mark. -/
theorem outline_bump (settled : r.Settled) (more : r.peek ≠ .eof) :
    r.outline = ⟨(r.position, r.peek) :: r.bump.outline.shown, r.bump.outline.mark,
      r.bump.outline.ending⟩ := by
  have inside := TokenStream.lt_size_of_kindAt more
  have next : r.bump.seen = r.tokens.visibleFrom (r.position + 1) := by
    rw [bump_of_next r more]
    exact r.tokens.visibleFrom_skipHidden (r.position + 1)
  rw [outline, outline, next, bump_tokens, seen_cons settled inside,
    List.takeWhile_cons_of_pos (by simpa using more), List.find?_cons_of_neg (by simpa using more)]

theorem settled_report (settled : r.Settled) (p : Problem) : (r.report p).Settled := by
  rw [report_eq]
  exact ⟨settled.within, settled.shown⟩

theorem settled_ofTokens (tokens : TokenStream) : (ofTokens tokens).Settled :=
  ⟨TokenStream.skipHidden_le (Nat.zero_le _), TokenStream.skipHidden_shown tokens 0⟩

theorem outline_ofTokens (tokens : TokenStream) :
    (ofTokens tokens).outline = Outline.ofTokens tokens := by
  rw [outline, seen, ofTokens, TokenStream.visibleFrom_skipHidden]
  rfl

end Outline

section Run

theorem bump_builder (r : Reader) : r.bump.builder =
    if r.position < r.tokens.size then r.builder.addToken r.position else r.builder := by
  rw [bump]
  split
  · simp only
    split <;> rfl
  · rfl

theorem run_goal_expand (planned : plan g r.peek (r.peekNth 1) = .expand items) :
    r.run (.goal g :: stack) = r.run (items ++ stack) := by
  rw [run]
  split
  · rename_i found
    obtain rfl := Plan.expand.inj (planned.symm.trans found)
    rfl
  · rename_i found
    exact absurd (planned.symm.trans found) (by simp)

theorem run_goal_shift (planned : plan g r.peek (r.peekNth 1) = .shift entered items) :
    r.run (.goal g :: stack) =
      if r.peek = .eof then r.run stack else (r.enterAll entered).bump.run (items ++ stack) := by
  rw [run]
  split
  · rename_i found
    exact absurd (planned.symm.trans found) (by simp)
  · rename_i found
    obtain ⟨rfl, rfl⟩ := Plan.shift.inj (planned.symm.trans found)
    rfl

end Run

section Events

/-- The errors once further problems are reported, each at its position. -/
def recorded (r : Reader) (found : List (Nat × Problem)) : List SyntaxError :=
  r.errors.toList ++ (firstPerPosition (r.errors.back?.map (·.position)) found).map
    fun (i, p) => describe r.tokens i p

def events (r : Reader) (stack : List Item) : List Placed :=
  place r.outline.mark r.outline.ending (r.outline.shown.map (·.1))
    (Grammar.run (r.outline.shown.map (·.2)) stack)

theorem events_nil : r.events [] = [] := by
  rw [events, run_nil]
  rfl

theorem events_enter (settled : r.Settled) : r.events (.enter rule :: stack) =
    .step (.start rule r.position) :: (r.enter rule).events stack := by
  rw [events, run_enter, place, ← position_eq settled]
  rfl

theorem events_leave : r.events (.leave :: stack) = .step .finish :: r.leave.events stack := by
  rw [events, run_leave, place]
  rfl

theorem outline_report (r : Reader) (p : Problem) : (r.report p).outline = r.outline := by
  rw [report_eq]
  rfl

theorem events_report (settled : r.Settled) : r.events (.report p :: stack) =
    .problem r.position p :: (r.report p).events stack := by
  rw [events, run_report, place, ← position_eq settled, events, outline_report]

theorem outline_of_end (last : r.peek = .eof) : r.bump.outline = r.outline := by
  rw [bump_of_end r last]
  rfl

/-- The mark at the end is taken if there is one. -/
theorem events_endMark (settled : r.Settled) (last : r.peek = .eof) :
    r.events (.endMark :: stack) =
      (if r.position < r.tokens.size then [.step (.token r.position)] else []) ++
        r.bump.events stack := by
  rw [events, run_endMark, events, outline_of_end last]
  by_cases inside : r.position < r.tokens.size
  · have mark : r.outline.mark = some r.position := by
      rw [outline, seen_cons settled inside, List.find?_cons_of_pos (by simp [last])]
      rfl
    rw [if_pos inside, mark, place]
    rfl
  · have mark : r.outline.mark = none := by
      rw [outline, seen_nil (Nat.not_lt.mp inside)]
      rfl
    rw [if_neg inside, mark, place]
    rfl

theorem plan_seen (settled : r.Settled) : plan g r.peek (r.peekNth 1) =
    plan g (Grammar.peek (r.outline.shown.map (·.2)))
      (Grammar.peek ((r.outline.shown.map (·.2)).drop 1)) := by
  by_cases last : r.peek = .eof
  · rw [shown_nil settled last, last]
    exact plan_end g _
  · rw [← peek_eq settled, ← peekNth_eq settled last]

theorem events_expand (settled : r.Settled)
    (planned : plan g r.peek (r.peekNth 1) = .expand items) :
    r.events (.goal g :: stack) = r.events (items ++ stack) := by
  rw [plan_seen settled] at planned
  rw [events, Grammar.run_expand planned, events]

theorem events_shift_end (settled : r.Settled) (last : r.peek = .eof)
    (planned : plan g r.peek (r.peekNth 1) = .shift entered items) :
    r.events (.goal g :: stack) = r.events stack := by
  rw [last, plan_end] at planned
  rw [events, events, shown_nil settled last, List.map_nil, List.map_nil,
    Grammar.run_shift_nil planned]

theorem settled_enterAll (settled : r.Settled) (entered : List Rule) :
    (r.enterAll entered).Settled := by
  rw [enterAll_eq]
  exact ⟨settled.within, settled.shown⟩

theorem outline_enterAll (r : Reader) (entered : List Rule) :
    (r.enterAll entered).outline = r.outline := by
  rw [enterAll_eq]
  rfl

theorem events_shift (settled : r.Settled) (more : r.peek ≠ .eof)
    (planned : plan g r.peek (r.peekNth 1) = .shift entered items) :
    r.events (.goal g :: stack) =
      entered.map (fun rule => .step (.start rule r.position)) ++
        .step (.token r.position) :: (r.enterAll entered).bump.events (items ++ stack) := by
  have left := outline_bump (settled_enterAll settled entered) (by rwa [enterAll_peek])
  have stands : (r.enterAll entered).position = r.position := by rw [enterAll_eq]
  rw [outline_enterAll, stands, enterAll_peek] at left
  have next : plan g r.peek
      (Grammar.peek ((r.enterAll entered).bump.outline.shown.map (·.2))) =
        .shift entered items := by
    rw [plan_seen settled, left] at planned
    exact planned
  rw [events, left, List.map_cons, List.map_cons, Grammar.run_shift next, place_enters]
  rfl

theorem recorded_congr {r' : Reader} (tokens : r'.tokens = r.tokens)
    (errors : r'.errors = r.errors) : r'.recorded = r.recorded := by
  funext found
  rw [recorded, recorded, tokens, errors]

theorem recorded_report (r : Reader) (p : Problem) (found : List (Nat × Problem)) :
    r.recorded ((r.position, p) :: found) = (r.report p).recorded found := by
  have known : r.errors.back?.any (·.position = r.position) = true ↔
      r.errors.back?.map (·.position) = some r.position := by
    cases r.errors.back? <;> simp
  rw [recorded, firstPerPosition, report]
  by_cases repeated : r.errors.back?.map (·.position) = some r.position
  · rw [if_pos repeated, if_pos (known.mpr repeated), recorded]
  · rw [if_neg repeated, if_neg (mt known.mp repeated), recorded, Array.back?_push,
      Option.map_some, position_describe, Array.toList_push, List.append_assoc]
    rfl

/-- The steps that the reader takes and the errors that it records when it carries out instructions
are those of the events. -/
theorem run_eq (settled : r.Settled) (guarded : r.peek = .eof ∨ Guarded stack) :
    (r.run stack).builder = r.builder.run ((r.events stack).filterMap Placed.step?) ∧
      (r.run stack).errors.toList = r.recorded ((r.events stack).filterMap Placed.problem?) := by
  induction r, stack using Reader.run.induct with
  | case1 r =>
    rw [run, events_nil]
    exact ⟨rfl, (List.append_nil _).symm⟩
  | case2 r rule stack ih =>
    rw [run, events_enter settled]
    exact ih ⟨settled.within, settled.shown⟩ guarded
  | case3 r stack ih =>
    rw [run, events_leave]
    exact ih ⟨settled.within, settled.shown⟩ guarded
  | case4 r p stack ih =>
    have same : (r.report p).builder = r.builder := by rw [report_eq]
    obtain ⟨builder, errors⟩ := ih (settled_report settled p) (by rwa [report_peek])
    rw [run, events_report settled, builder, errors, same]
    exact ⟨rfl, (recorded_report r p _).symm⟩
  | case5 r stack ih =>
    -- Nothing stands before the mark any more, so the token added is the mark, if there is one.
    have last : r.peek = .eof := guarded.resolve_right id
    have stays : r.bump.peek = .eof := by rwa [bump_of_end r last]
    obtain ⟨builder, errors⟩ := ih (settled_bump settled) (.inl stays)
    rw [run, events_endMark settled last, builder, errors, bump_builder,
      recorded_congr (bump_tokens r) (bump_errors r)]
    split <;> exact ⟨rfl, rfl⟩
  | case6 r g stack items planned ih =>
    have next : r.peek = .eof ∨ Guarded (items ++ stack) := by
      by_cases last : r.peek = .eof
      · exact .inl last
      · have kept := guarded_plan last (guarded.resolve_left last) (r.peekNth 1)
        rw [planned] at kept
        exact .inr kept
    rw [run_goal_expand planned, events_expand settled planned]
    exact ih settled next
  | case7 r g stack entered items planned last ih =>
    rw [run_goal_shift planned, if_pos last, events_shift_end settled last planned]
    exact ih settled (.inl last)
  | case8 r g stack entered items planned more ih =>
    have kept := guarded_plan more (guarded.resolve_left more) (r.peekNth 1)
    rw [planned] at kept
    obtain ⟨builder, errors⟩ := ih (settled_bump (settled_enterAll settled entered)) (.inr kept)
    have problems : (entered.map fun rule => Placed.step (.start rule r.position)).filterMap
        Placed.problem? = [] := by
      simp [Placed.problem?]
    rw [run_goal_shift planned, if_neg more, builder, errors,
      events_shift settled more planned, List.filterMap_append, List.filterMap_append,
      step?_starts, problems, bump_builder, recorded_congr (bump_tokens _) (bump_errors _),
      enterAll_eq, if_pos (TokenStream.lt_size_of_kindAt more)]
    refine ⟨?_, rfl⟩
    rw [TreeBuilder.run, TreeBuilder.run, TreeBuilder.run, List.foldl_append]
    rfl

/-- Reading a stream takes the steps and records the errors of its trace. -/
theorem run_query (tokens : TokenStream) :
    ((ofTokens tokens).run [.goal .query]).builder =
        TreeBuilder.empty.run ((trace tokens).filterMap Placed.step?) ∧
      ((ofTokens tokens).run [.goal .query]).errors.toList =
        (firstPerPosition none ((trace tokens).filterMap Placed.problem?)).map
          fun (i, p) => describe tokens i p := by
  have guarded : Guarded [.goal .query] := trivial
  have read := run_eq (settled_ofTokens tokens) (.inr guarded)
  rw [events, outline_ofTokens] at read
  exact read

end Events

end Reader

/-- Parsing builds the tree of the events of its stream. -/
theorem tree_parseTokens (tokens : TokenStream) :
    (parseTokens tokens).tree = .ofSteps ((trace tokens).filterMap Placed.step?) :=
  congrArg TreeBuilder.toTree (Reader.run_query tokens).1

/-- Parsing records the first problem at each position. -/
theorem errors_parseTokens (tokens : TokenStream) : (parseTokens tokens).errors =
    (firstPerPosition none ((trace tokens).filterMap Placed.problem?)).map
      fun (i, p) => describe tokens i p :=
  (Reader.run_query tokens).2

end SoqlAssist
