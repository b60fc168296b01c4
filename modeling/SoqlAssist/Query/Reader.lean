import SoqlAssist.Grammar.Rank
import SoqlAssist.Token.Basic
import SoqlAssist.Tree.Build

/-!
Reading a query. The reader stands at a position of a token stream, on a visible token or at the
end. It works through a stack of instructions: it opens and closes rules of the tree, adds the token
it stands on and steps over the hidden tokens behind it, and records what is missing. A goal is
planned from the kind of the token at the position and that of the next visible one.

The mark at the end is added to the tree but never stepped over. An error is recorded unless the
last one is at the same position.
-/
namespace SoqlAssist

structure SyntaxError where
  message : String
  /-- The position of the offending token. -/
  position : Nat
  line : Nat
  column : Nat
  /-- The number of characters of the offending token. -/
  length : Nat
  deriving DecidableEq, Repr

def SyntaxError.display (e : SyntaxError) : String :=
  s!"line {e.line}:{e.column} {e.message}"

def Parse.describe (tokens : TokenStream) (position : Nat) (p : Problem) : SyntaxError :=
  match tokens[position]? with
  | some t =>
    if t.kind = .eof then ⟨s!"{p.text}, found <EOF>", position, t.line, t.column, 0⟩
    else ⟨s!"{p.text}, found '{t.text}'", position, t.line, t.column, t.text.length⟩
  | none => ⟨s!"{p.text}, found <EOF>", position, 1, 0, 0⟩

namespace TokenStream

theorem exists_hidden {tokens : TokenStream} {i : Nat}
    (hidden : tokens[i]?.any Token.isHidden = true) :
    ∃ inside : i < tokens.size, tokens[i].isHidden = true := by
  obtain ⟨t, found, hidden⟩ := (Option.any_eq_true _ _).mp hidden
  obtain ⟨inside, rfl⟩ := Array.getElem?_eq_some_iff.mp found
  exact ⟨inside, hidden⟩

/-- Steps over hidden tokens one by one: the first position from `i` on that holds none. -/
def skipHidden (tokens : TokenStream) (i : Nat) : Nat :=
  if tokens[i]?.any Token.isHidden then tokens.skipHidden (i + 1) else i
termination_by tokens.size - i
decreasing_by
  rename_i hidden
  obtain ⟨inside, _⟩ := exists_hidden hidden
  exact Nat.sub_succ_lt_self _ _ inside

theorem le_skipHidden (tokens : TokenStream) (i : Nat) : i ≤ tokens.skipHidden i := by
  induction i using skipHidden.induct tokens with
  | case1 i hidden ih =>
    rw [skipHidden, if_pos hidden]
    exact Nat.le_of_succ_le ih
  | case2 i shown => exact Nat.le_of_eq (by rw [skipHidden, if_neg shown])

theorem lt_size_of_kindAt {tokens : TokenStream} {i : Nat} (other : tokens.kindAt i ≠ .eof) :
    i < tokens.size := by
  refine Nat.lt_of_not_le fun past => other ?_
  rw [kindAt, Array.getElem?_eq_none past]

end TokenStream

/-- A token stream while it is read. -/
structure Reader where
  tokens : TokenStream
  /-- The position of the token to be read next. -/
  position : Nat
  builder : TreeBuilder
  errors : Array SyntaxError
  deriving DecidableEq, Repr

namespace Reader

open Grammar

def ofTokens (tokens : TokenStream) : Reader :=
  ⟨tokens, tokens.skipHidden 0, .empty, #[]⟩

/-- The kind of the token to be read next, `eof` at the end of the stream. -/
def peek (r : Reader) : TokenKind :=
  r.tokens.kindAt r.position

/-- The kind of the `n`-th visible token behind the next one, `eof` if there is none. -/
def peekNth (r : Reader) (n : Nat) : TokenKind :=
  match ((r.tokens.toList.drop (r.position + 1)).filter (!·.isHidden))[n - 1]? with
  | some t => t.kind
  | none => .eof

def enter (r : Reader) (rule : Rule) : Reader :=
  { r with builder := r.builder.startRule rule r.position }

def leave (r : Reader) : Reader :=
  { r with builder := r.builder.finishRule }

/-- Adds the next token to the innermost open rule, and goes on behind it unless it is the mark at
the end. -/
def bump (r : Reader) : Reader :=
  if r.position < r.tokens.size then
    let builder := r.builder.addToken r.position
    if r.peek = .eof then { r with builder }
    else { r with builder, position := r.tokens.skipHidden (r.position + 1) }
  else r

/-- Records a problem, unless the last one was recorded at this position. -/
def report (r : Reader) (p : Problem) : Reader :=
  if r.errors.back?.any (·.position = r.position) then r
  else { r with errors := r.errors.push (Parse.describe r.tokens r.position p) }

def enterAll (r : Reader) (rules : List Rule) : Reader :=
  rules.foldl enter r

/-- Opening rules changes only the tree. -/
theorem enterAll_eq (r : Reader) (rules : List Rule) : r.enterAll rules =
    { r with builder := r.builder.run (rules.map (.start · r.position)) } := by
  induction rules generalizing r with
  | nil => rfl
  | cons rule rules ih => exact ih (r.enter rule)

theorem enterAll_peek (r : Reader) (rules : List Rule) : (r.enterAll rules).peek = r.peek := by
  rw [enterAll_eq]
  rfl

theorem report_eq (r : Reader) (p : Problem) :
    r.report p = { r with errors := (r.report p).errors } := by
  rw [report]
  split <;> rfl

theorem report_peek (r : Reader) (p : Problem) : (r.report p).peek = r.peek := by
  rw [report_eq]
  rfl

theorem bump_eq (r : Reader) :
    r.bump = { r with builder := r.bump.builder, position := r.bump.position } := by
  rw [bump]
  split
  · simp only
    split <;> rfl
  · rfl

theorem bump_tokens (r : Reader) : r.bump.tokens = r.tokens := by
  rw [bump_eq]

theorem bump_errors (r : Reader) : r.bump.errors = r.errors := by
  rw [bump_eq]

theorem bump_of_next (r : Reader) (more : r.peek ≠ .eof) :
    r.bump = { r with
      builder := r.builder.addToken r.position
      position := r.tokens.skipHidden (r.position + 1) } := by
  rw [bump, if_pos (TokenStream.lt_size_of_kindAt more)]
  exact if_neg more

theorem lt_bump {r : Reader} (more : r.peek ≠ .eof) : r.position < r.bump.position := by
  rw [bump_of_next r more]
  exact r.tokens.le_skipHidden (r.position + 1)

theorem bump_of_end (r : Reader) (last : r.peek = .eof) :
    r.bump = { r with builder := r.bump.builder } := by
  rw [bump]
  split <;> rfl

theorem le_bump (r : Reader) : r.position ≤ r.bump.position := by
  by_cases last : r.peek = .eof
  · exact Nat.le_of_eq (congrArg position (bump_of_end r last)).symm
  · exact Nat.le_of_lt (lt_bump last)

def left (r : Reader) : Nat :=
  r.tokens.size - r.position

theorem left_bump_lt {r : Reader} (more : r.peek ≠ .eof) : r.bump.left < r.left := by
  have before := lt_bump more
  have inside := TokenStream.lt_size_of_kindAt more
  rw [left, left, bump_tokens]
  omega

theorem left_bump_le (r : Reader) : r.bump.left ≤ r.left := by
  have before := le_bump r
  rw [left, left, bump_tokens]
  omega

/-- Carries out instructions from left to right. -/
def run (r : Reader) (stack : List Item) : Reader :=
  match stack with
  | [] => r
  | .enter rule :: stack => (r.enter rule).run stack
  | .leave :: stack => r.leave.run stack
  | .report p :: stack => (r.report p).run stack
  | .endMark :: stack => r.bump.run stack
  | .goal g :: stack =>
    match _ : plan g r.peek (r.peekNth 1) with
    | .expand items => r.run (items ++ stack)
    | .shift entered items =>
      -- No goal takes the mark at the end.
      if r.peek = .eof then r.run stack
      else (r.enterAll entered).bump.run (items ++ stack)
termination_by shiftRank * r.left + rankOf stack
decreasing_by
  · exact Nat.add_lt_add_left (rankOf_lt_cons _ _) _
  · exact Nat.add_lt_add_left (rankOf_lt_cons _ _) _
  · rw [report_eq]
    exact Nat.add_lt_add_left (rankOf_lt_cons _ _) _
  · exact Nat.add_lt_add_of_le_of_lt (Nat.mul_le_mul_left _ (left_bump_le r)) (rankOf_lt_cons _ _)
  · rename_i planned
    exact Nat.add_lt_add_left (rankOf_expand_append_lt planned) _
  · exact Nat.add_lt_add_left (rankOf_lt_cons _ _) _
  · rename_i planned more
    have fewer : (r.enterAll entered).bump.left < r.left := by
      have same : (r.enterAll entered).left = r.left := by
        rw [enterAll_eq]
        rfl
      rw [← same]
      exact left_bump_lt (by rwa [enterAll_peek])
    have bound := Nat.mul_le_mul_left shiftRank (Nat.succ_le_of_lt fewer)
    have rest : rankOf (items ++ stack) < shiftRank + rankOf (.goal g :: stack) :=
      rankOf_shift_append_lt planned
    rw [Nat.mul_succ] at bound
    omega

end Reader

end SoqlAssist
