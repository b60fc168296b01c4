import SoqlAssist.Proofs.Grammar.Phrase
import SoqlAssist.Proofs.Grammar.Run

/-!
Every word of the language is read without a problem. A goal passes a word when the run goes on
cleanly behind it, whatever instructions are still on the stack; what comes after the word matters
only through its first token, which must not continue it.
-/
namespace SoqlAssist.Grammar

open Pattern

variable {g : Goal} {k : TokenKind} {word first second rest : List TokenKind}
  {items more : List Item} {entered : List Rule} {rule : Rule}

/-- The instructions take `word` without a problem when `rest` comes after it. -/
def Passes (items : List Item) (word rest : List TokenKind) : Prop :=
  ∀ stack, Clean (run rest stack) → Clean (run (word ++ rest) (items ++ stack))

namespace Passes

theorem nil : Passes [] [] rest := fun _ clean => clean

theorem append (left : Passes items first (second ++ rest)) (right : Passes more second rest) :
    Passes (items ++ more) (first ++ second) rest := by
  intro stack clean
  rw [List.append_assoc, List.append_assoc]
  exact left _ (right stack clean)

theorem cons {x : Item} (left : Passes [x] first (second ++ rest))
    (right : Passes items second rest) : Passes (x :: items) (first ++ second) rest :=
  left.append right

theorem enter (passes : Passes items word rest) : Passes (.enter rule :: items) word rest := by
  intro stack clean
  rw [List.cons_append, run_enter, clean_enter]
  exact passes stack clean

theorem leave (passes : Passes items word rest) : Passes (.leave :: items) word rest := by
  intro stack clean
  rw [List.cons_append, run_leave, clean_leave]
  exact passes stack clean

theorem leaveLast (passes : Passes items word rest) : Passes (items ++ [.leave]) word rest := by
  have stops : Passes [.leave] [] rest := .leave .nil
  simpa using (show Passes items word ([] ++ rest) from passes).append stops

theorem expand
    (planned : plan g (peek (word ++ rest)) (peek ((word ++ rest).drop 1)) = .expand items)
    (passes : Passes items word rest) : Passes [.goal g] word rest := by
  intro stack clean
  rw [List.singleton_append, clean_expand planned]
  exact passes stack clean

theorem shift (planned : plan g k (peek (word ++ rest)) = .shift entered items)
    (passes : Passes items word rest) : Passes [.goal g] (k :: word) rest := by
  intro stack clean
  rw [List.singleton_append, List.cons_append, clean_shift planned]
  exact passes stack clean

theorem one {p : Problem} : Passes [.goal (.one k p)] [k] rest :=
  have planned (k₂ : TokenKind) : plan (.one k p) k k₂ = .shift [] [] := by simp [plan]
  .shift (planned _) .nil

theorem token (passes : Passes items word rest) :
    Passes (Grammar.token k :: items) (k :: word) rest := by
  have taken : Passes [Grammar.token k] [k] (word ++ rest) := one
  exact taken.cons passes

end Passes

def PathEnds (rest : List TokenKind) : Prop := peek rest ∉ [TokenKind.dot, .lParen, .BY]

/-- The next token continues neither a path nor the name that may stand after it. -/
def Apart (rest : List TokenKind) : Prop :=
  peek rest ∉ [TokenKind.identifier, .dot, .lParen, .BY, .colon]

theorem Apart.pathEnds (apart : Apart rest) : PathEnds rest := by
  simp only [Apart, PathEnds, List.mem_cons, List.not_mem_nil, or_false, not_or] at apart ⊢
  exact ⟨apart.2.1, apart.2.2.1, apart.2.2.2.1⟩

theorem atName_of_derives {k₂ : TokenKind} (derives : Derives (.ref .name) [k]) (alone : k₂ ≠ .BY) :
    atName k k₂ = true := by
  obtain ⟨_, member, same⟩ := Derives.any_iff.mp (Derives.ref_iff.mp derives)
  obtain rfl := List.singleton_inj.mp same
  simp only [atName, softKeywords, List.contains_iff_mem, Bool.or_eq_true, Bool.and_eq_true,
    beq_iff_eq, bne_iff_ne]
  rcases List.mem_cons.mp member with rfl | member
  · exact .inl rfl
  · exact .inr ⟨member, alone⟩

theorem name_singleton (derives : Derives (.ref .name) word) :
    ∃ k, word = [k] ∧ Derives (.ref .name) [k] := by
  obtain ⟨k, member, rfl⟩ := Derives.any_iff.mp (Derives.ref_iff.mp derives)
  exact ⟨k, rfl, derives⟩

theorem identifier_passes (derives : Derives (.ref .name) word) (alone : peek rest ≠ .BY) :
    Passes [Goal.identifier] word rest := by
  obtain ⟨k, rfl, named⟩ := name_singleton derives
  have planned : plan .identifier k (peek rest) = .shift [.identifier] [.leave] := by
    simp only [plan, atName_of_derives named alone, if_true]
  exact .shift planned (.leave .nil)

/-- The token after the first name of a path. -/
theorem dotted_next (rest : List TokenKind)
    (derives : Derives (.many (seq [tok .dot, .ref .name])) word) :
    word = [] ∨ peek (word ++ rest) = .dot := by
  rcases Derives.many_iff.mp derives with rfl | ⟨_, names, rfl, head, _⟩
  · exact .inl rfl
  · obtain ⟨name, rfl, _⟩ := Derives.seq_tok_cons_iff.mp head
    exact .inr rfl

theorem dotted_passes {word : List TokenKind}
    (derives : Derives (.many (seq [tok .dot, .ref .name])) word) (ends : PathEnds rest) :
    Passes [Goal.dotted] word rest := by
  rcases Derives.many_iff.mp derives with rfl | ⟨_, names, rfl, head, more⟩
  · have planned : plan .dotted (peek rest) (peek (rest.drop 1)) = .expand [] := by
      simp_all [PathEnds, plan]
    exact .expand planned .nil
  · obtain ⟨_, rfl, name⟩ := Derives.seq_tok_cons_iff.mp head
    obtain ⟨k, rfl, named⟩ := name_singleton (Derives.seq_singleton_iff.mp name)
    have alone : peek (names ++ rest) ≠ .BY := by
      rcases dotted_next rest more with rfl | next
      · simp_all [PathEnds]
      · simp [next]
    have planned : plan .afterDot k (peek (names ++ rest)) =
        .expand [Goal.identifier, Goal.dotted] := by
      simp only [plan, atName_of_derives named alone, if_true]
    have tail : Passes [Goal.afterDot] ([k] ++ names) rest :=
      .expand planned ((identifier_passes named alone).cons (dotted_passes more ends))
    exact .shift rfl tail
termination_by word.length
decreasing_by
  simp only [*, List.length_append, List.length_cons]
  omega

/-- A path starts with a name, and the token after it opens no call. -/
theorem path_starts (derives : Derives (.ref .path) word) (ends : PathEnds rest) :
    ∃ k names, word = k :: names ∧ Derives (.ref .name) [k] ∧
      Derives (.many (seq [tok .dot, .ref .name])) names ∧
      peek (names ++ rest) ≠ .BY ∧ peek (names ++ rest) ≠ .lParen := by
  obtain ⟨_, names, rfl, name, more⟩ := Derives.seq_cons_iff.mp (Derives.ref_iff.mp derives)
  obtain ⟨k, rfl, named⟩ := name_singleton name
  have more := Derives.seq_singleton_iff.mp more
  refine ⟨k, names, rfl, named, more, ?_⟩
  rcases dotted_next rest more with rfl | next
  · simp_all [PathEnds]
  · simp [next]

theorem field_passes (derives : Derives (.ref .path) word) (ends : PathEnds rest) :
    Passes [Goal.field] word rest := by
  obtain ⟨k, names, rfl, named, more, alone, _⟩ := path_starts derives ends
  have inside := (identifier_passes named alone).cons (dotted_passes more ends)
  exact .expand rfl inside.leaveLast.enter

theorem atName_path (derives : Derives (.ref .path) word) (ends : PathEnds rest) :
    atName (peek (word ++ rest)) (peek ((word ++ rest).drop 1)) = true ∧
      atCall (peek (word ++ rest)) (peek ((word ++ rest).drop 1)) = false := by
  obtain ⟨k, names, rfl, named, _, alone, closed⟩ := path_starts derives ends
  refine ⟨atName_of_derives named alone, ?_⟩
  simp [atCall, closed]

theorem alias_passes (derives : Derives (.opt (tok .identifier)) word) (apart : Apart rest) :
    Passes [Goal.alias] word rest := by
  rcases Derives.opt_iff.mp derives with rfl | named
  · have planned : plan .alias (peek rest) (peek (rest.drop 1)) = .expand [] := by
      simp_all [Apart, plan]
    exact .expand planned .nil
  · obtain rfl := Derives.tok_iff.mp named
    have named : Derives (.ref .name) [TokenKind.identifier] := .ref (.any (by simp))
    have alone : peek rest ≠ .BY := by simp_all [Apart]
    exact .expand rfl (identifier_passes named alone)

/-- What stands after the path of a column or an object is the end or an alias. -/
theorem alias_pathEnds (derives : Derives (.opt (tok .identifier)) word) (apart : Apart rest) :
    PathEnds (word ++ rest) := by
  rcases Derives.opt_iff.mp derives with rfl | named
  · exact apart.pathEnds
  · obtain rfl := Derives.tok_iff.mp named
    simp [PathEnds]

theorem fromExpr_passes (derives : Derives (.ref .object) word) (apart : Apart rest) :
    Passes [Goal.fromExpr] word rest := by
  obtain ⟨path, label, rfl, field, named⟩ := Derives.seq_cons_iff.mp (Derives.ref_iff.mp derives)
  have named := Derives.seq_singleton_iff.mp named
  have inside := (field_passes field (alias_pathEnds named apart)).cons (alias_passes named apart)
  exact .expand rfl inside.leaveLast.enter

/-- A call starts with a name or `COUNT` and an opening parenthesis. -/
theorem call_starts (derives : Derives (.ref .call) word) :
    ∃ k inside, word = k :: .lParen :: (inside ++ [.rParen]) ∧ atCall k .lParen = true ∧
      Derives (.opt (.ref .argument)) inside := by
  obtain ⟨_, _, rfl, function, parenthesised⟩ :=
    Derives.seq_cons_iff.mp (Derives.ref_iff.mp derives)
  obtain ⟨inside, rfl, argument⟩ :=
    Derives.parens_iff.mp (Derives.seq_singleton_iff.mp parenthesised)
  rcases Derives.alt_cons_iff.mp (Derives.ref_iff.mp function) with name | count
  · obtain ⟨k, rfl, named⟩ := name_singleton name
    exact ⟨k, inside, rfl, by simp [atCall, atName_of_derives named], argument⟩
  · obtain rfl : _ = [TokenKind.COUNT] := by simpa using count
    exact ⟨.COUNT, inside, rfl, rfl, argument⟩

theorem atCall_call (rest : List TokenKind) (derives : Derives (.ref .call) word) :
    atCall (peek (word ++ rest)) (peek ((word ++ rest).drop 1)) = true := by
  obtain ⟨k, inside, rfl, called, _⟩ := call_starts derives
  exact called

theorem callTail_passes {inside tail : List TokenKind}
    (argument : Passes [Goal.argument] inside (.rParen :: (tail ++ rest)))
    (after : Passes items tail rest) :
    Passes (callTail items) (.lParen :: (inside ++ .rParen :: tail)) rest :=
  .token (argument.cons (.token after))

mutual

theorem functionCall_passes {word rest : List TokenKind} (derives : Derives (.ref .call) word) :
    Passes [Goal.functionCall] word rest := by
  obtain ⟨k, inside, rfl, called, argument⟩ := call_starts derives
  have planned : plan .functionCall k .lParen = .shift [.functionCall] (callTail [.leave]) := by
    simp only [plan, called, if_true]
  exact .shift planned (callTail_passes (argument_passes argument) (.leave .nil))
termination_by 2 * word.length
decreasing_by
  simp only [*, List.length_append, List.length_cons]
  omega

theorem argument_passes {word rest : List TokenKind}
    (derives : Derives (.opt (.ref .argument)) word) :
    Passes [Goal.argument] word (.rParen :: rest) := by
  rcases Derives.opt_iff.mp derives with rfl | argument
  · exact .expand rfl .nil
  rcases Derives.argument_iff.mp argument with call | path
  · have planned : plan .argument (peek (word ++ .rParen :: rest))
        (peek ((word ++ .rParen :: rest).drop 1)) = .expand [Goal.functionCall] := by
      simp only [plan, atCall_call _ call, if_true]
    exact .expand planned (functionCall_passes call)
  · have ends : PathEnds (.rParen :: rest) := by simp [PathEnds]
    obtain ⟨named, uncalled⟩ := atName_path path ends
    have planned : plan .argument (peek (word ++ .rParen :: rest))
        (peek ((word ++ .rParen :: rest).drop 1)) = .expand [Goal.field] := by
      simp only [plan, named, uncalled, Bool.false_eq_true, if_true, if_false]
    exact .expand planned (field_passes path ends)
termination_by 2 * word.length + 1

end

theorem groupItem_passes (derives : Derives (.ref .argument) word) (ends : PathEnds rest) :
    Passes [Goal.groupItem] word rest := by
  rcases Derives.argument_iff.mp derives with call | path
  · have planned : plan .groupItem (peek (word ++ rest)) (peek ((word ++ rest).drop 1)) =
        .expand [Goal.functionCall] := by
      simp only [plan, atCall_call _ call, if_true]
    exact .expand planned (functionCall_passes call)
  · obtain ⟨named, uncalled⟩ := atName_path path ends
    have planned : plan .groupItem (peek (word ++ rest)) (peek ((word ++ rest).drop 1)) =
        .expand [Goal.field] := by
      simp only [plan, named, uncalled, Bool.false_eq_true, if_true, if_false]
    exact .expand planned (field_passes path ends)

/-- A list goes on at a comma and only there. Its elements are shorter than the list. -/
theorem more_passes {a : Pattern} {element g : Goal} (follows : TokenKind → Prop)
    {word : List TokenKind}
    (step : ∀ k, plan g .comma k = .shift [] [.goal element, .goal g])
    (stop : ∀ k k₂, k ≠ .comma → plan g k k₂ = .expand []) (comma : follows .comma)
    (passes : ∀ first rest, first.length < word.length → Derives a first → follows (peek rest) →
      Passes [.goal element] first rest)
    (derives : Derives (Pattern.more a) word) (last : follows (peek rest))
    (ends : peek rest ≠ .comma) : Passes [.goal g] word rest := by
  rcases Derives.more_iff.mp derives with rfl | ⟨first, after, rfl, head, more⟩
  · exact .expand (stop _ _ ends) .nil
  · have next : follows (peek (after ++ rest)) := by
      rcases Derives.more_iff.mp more with rfl | ⟨_, _, rfl, _, _⟩
      · exact last
      · exact comma
    have tail : Passes [.goal g] after rest :=
      more_passes follows step stop comma (fun first rest shorter => passes first rest
        (by simp only [List.length_cons, List.length_append]; omega)) more last ends
    have shorter : first.length < (TokenKind.comma :: (first ++ after)).length := by
      simp only [List.length_cons, List.length_append]
      omega
    exact .shift (step _) ((passes first _ shorter head next).cons tail)
termination_by word.length
decreasing_by
  simp only [*, List.length_append, List.length_cons]
  omega

def Closes (rest : List TokenKind) : Prop :=
  peek rest ∈ [TokenKind.eof, .rParen, .USING, .WHERE, .HAVING, .WITH, .GROUP, .ORDER, .LIMIT,
    .OFFSET, .FOR, .UPDATE]

theorem Closes.not_mem {ks : List TokenKind} (closes : Closes rest)
    (disjoint : ∀ k ∈ [TokenKind.eof, .rParen, .USING, .WHERE, .HAVING, .WITH, .GROUP, .ORDER,
      .LIMIT, .OFFSET, .FOR, .UPDATE], k ∉ ks) : peek rest ∉ ks :=
  disjoint _ closes

theorem Closes.apart (closes : Closes rest) : Apart rest := closes.not_mem (by decide)

theorem value_starts (rest : List TokenKind) (derives : Derives (.ref .value) word) :
    peek (word ++ rest) ∉ [TokenKind.eq, .gt, .SELECT] := by
  simp only [Derives.ref_iff, Phrase.rule, Derives.alt_cons_iff, Derives.alt_nil_iff, or_false,
    Derives.any_iff, Derives.seq_any_cons_iff, Derives.seq_tok_cons_iff] at derives
  rcases derives with ⟨k, member, rfl⟩ | ⟨k, member, _, rfl, _⟩ | ⟨_, rfl, _⟩
  · revert k
    simp
  · revert k
    simp
  · simp

theorem number_passes (member : k ∈ [TokenKind.integer, .decimal]) :
    Passes [Goal.number] [k] rest := by
  have planned (k₂ : TokenKind) : plan .number k k₂ = .shift [] [] := by
    revert k
    simp [plan]
  exact .shift (planned _) .nil

theorem rangeCount_passes (derives : Derives (.opt (seq [tok .colon, tok .integer])) word)
    (apart : Apart rest) : Passes [Goal.rangeCount] word rest := by
  rcases Derives.opt_iff.mp derives with rfl | count
  · have planned : plan .rangeCount (peek rest) (peek (rest.drop 1)) = .expand [] := by
      simp_all [Apart, plan]
    exact .expand planned .nil
  · obtain ⟨_, rfl, number⟩ := Derives.seq_tok_cons_iff.mp count
    obtain rfl := Derives.tok_iff.mp (Derives.seq_singleton_iff.mp number)
    exact .shift rfl .one

theorem literalValue_passes (derives : Derives (.ref .value) word) (apart : Apart rest) :
    Passes [Goal.literalValue] word rest := by
  simp only [Derives.ref_iff, Phrase.rule, Derives.alt_cons_iff, Derives.alt_nil_iff, or_false,
    Derives.seq_any_cons_iff, Derives.seq_tok_cons_iff, Derives.seq_singleton_iff] at derives
  rcases derives with single | ⟨sign, signed, _, rfl, number⟩ | ⟨_, rfl, count⟩
  · obtain ⟨k, member, rfl⟩ := Derives.any_iff.mp single
    have planned (k₂ : TokenKind) : plan .literalValue k k₂ = .shift [.literalValue] [.leave] := by
      revert k
      simp [plan, valuePlan]
    exact .shift (planned _) (.leave .nil)
  · obtain ⟨k, member, rfl⟩ := Derives.any_iff.mp number
    have planned (k₂ : TokenKind) :
        plan .literalValue sign k₂ = .shift [.literalValue] [Goal.number, .leave] := by
      revert sign
      simp [plan, valuePlan]
    exact .shift (planned _) (number_passes member).leaveLast
  · exact .shift rfl (rangeCount_passes count apart).leaveLast

theorem likeLiteral_passes (member : k ∈ [TokenKind.string, .bind]) :
    Passes [Goal.likeLiteral] [k] rest := by
  have planned (k₂ : TokenKind) : plan .likeLiteral k k₂ = .shift [.likeLiteral] [.leave] := by
    revert k
    simp [plan]
  exact .shift (planned _) (.leave .nil)

theorem maybe_passes {ks : List TokenKind} (derives : Derives (.opt (.any ks)) word)
    (absent : peek rest ∉ ks) : Passes [Goal.maybe ks] word rest := by
  rcases Derives.opt_iff.mp derives with rfl | some
  · have planned : plan (.maybe ks) (peek rest) (peek (rest.drop 1)) = .expand [] := by
      simpa [plan] using absent
    exact .expand planned .nil
  · obtain ⟨k, member, rfl⟩ := Derives.any_iff.mp some
    have planned (k₂ : TokenKind) : plan (.maybe ks) k k₂ = .shift [] [] := by
      simpa [plan] using member
    exact .shift (planned _) .nil

theorem sign_passes (sign : Derives (.ref .sign) first) (value : Derives (.ref .value) second)
    (apart : Apart rest) : Passes [Goal.comparison] (first ++ second) rest := by
  have operand : Passes [.leave, Goal.literalValue] second rest :=
    .leave (literalValue_passes value apart)
  have starts := value_starts rest value
  simp only [Derives.ref_iff, Phrase.rule, Derives.alt_cons_iff, Derives.alt_nil_iff, or_false,
    Derives.any_iff, Derives.seq_tok_cons_iff, Derives.seq_singleton_iff] at sign
  rcases sign with ⟨k, member, rfl⟩ | ⟨more, rfl, optional⟩ | ⟨more, rfl, optional⟩
  · have planned (k₂ : TokenKind) :
        plan .comparison k k₂ = .shift [.comparisonOperator] [.leave, Goal.literalValue] := by
      revert k
      simp [plan, comparisonPlan]
    exact .shift (planned _) operand
  · have absent : peek (second ++ rest) ∉ [TokenKind.eq, .gt] := by simp_all
    exact .shift rfl ((maybe_passes optional absent).cons operand)
  · have absent : peek (second ++ rest) ∉ [TokenKind.eq] := by simp_all
    exact .shift rfl ((maybe_passes optional absent).cons operand)

theorem membership_passes (membership : Derives (.ref .membership) first)
    (list : Passes [Goal.inList] second rest) :
    Passes [Goal.comparison] (first ++ second) rest := by
  simp only [Derives.ref_iff, Phrase.rule, Derives.alt_cons_iff, Derives.alt_nil_iff, or_false,
    Derives.any_iff, Derives.seq_tok_cons_iff, Derives.seq_singleton_iff,
    Derives.tok_iff] at membership
  rcases membership with ⟨k, member, rfl⟩ | ⟨_, rfl, rfl⟩
  · have planned (k₂ : TokenKind) :
        plan .comparison k k₂ = .shift [.comparisonOperator] [.leave, Goal.inList] := by
      revert k
      simp [plan, comparisonPlan]
    exact .shift (planned _) (.leave list)
  · exact .shift rfl (.token (.leave list))

/-- A list is its first element and what follows each comma. -/
theorem listOf_passes {a : Pattern} {element g : Goal} (follows : TokenKind → Prop)
    (step : ∀ k, plan g .comma k = .shift [] [.goal element, .goal g])
    (stop : ∀ k k₂, k ≠ .comma → plan g k k₂ = .expand []) (comma : follows .comma)
    (passes : ∀ first rest, first.length ≤ word.length → Derives a first → follows (peek rest) →
      Passes [.goal element] first rest)
    (derives : Derives (listOf a) word) (last : follows (peek rest)) (ends : peek rest ≠ .comma) :
    Passes [.goal element, .goal g] word rest := by
  obtain ⟨first, after, rfl, head, more⟩ := Derives.listOf_iff.mp derives
  have next : follows (peek (after ++ rest)) := by
    rcases Derives.more_iff.mp more with rfl | ⟨_, _, rfl, _, _⟩
    · exact last
    · exact comma
  have tail : Passes [.goal g] after rest :=
    more_passes follows step stop comma (fun first rest shorter => passes first rest
      (by simp only [List.length_append]; omega)) more last ends
  exact (passes first _ (by simp only [List.length_append]; omega) head next).cons tail

theorem fromPart_passes (derives : Derives (listOf (.ref .object)) word) (closes : Closes rest) :
    Passes [Goal.fromPart] (.FROM :: word) rest := by
  have objects : Passes [Goal.fromExpr, Goal.moreObjects] word rest :=
    listOf_passes (fun k => k ∉ [TokenKind.identifier, .dot, .lParen, .BY, .colon])
      (fun _ => rfl) (fun _ _ other => by simp [plan, other]) (by decide)
      (fun _ _ _ object apart => fromExpr_passes object apart) derives closes.apart
      (fun same => by simp [Closes, same] at closes)
  have named : atName (peek (word ++ rest)) (peek ((word ++ rest).drop 1)) = true := by
    obtain ⟨first, after, rfl, object, more⟩ := Derives.listOf_iff.mp derives
    obtain ⟨path, label, rfl, field, aliased⟩ :=
      Derives.seq_cons_iff.mp (Derives.ref_iff.mp object)
    have apart : Apart (after ++ rest) := by
      rcases Derives.more_iff.mp more with rfl | ⟨_, _, rfl, _, _⟩
      · exact closes.apart
      · simp [Apart]
    have ends := alias_pathEnds (Derives.seq_singleton_iff.mp aliased) apart
    simpa using (atName_path field ends).1
  have planned : plan .fromExprs (peek (word ++ rest)) (peek ((word ++ rest).drop 1)) =
      .expand [.enter .fromExprs, Goal.fromExpr, Goal.moreObjects, .leave] := by
    simp only [plan, named, if_true]
  exact .shift rfl (Passes.expand planned objects.leaveLast.enter).leaveLast

/-- Conditions of fewer than `n` tokens are read. -/
def ReadsConditions (n : Nat) : Prop :=
  ∀ {word rest : List TokenKind}, word.length < n → Derives (.ref .conditions) word →
    Closes rest → Passes [Goal.whereExprs] word rest

theorem semiWhere_passes {n : Nat} (inner : ReadsConditions n) (shorter : word.length ≤ n)
    (derives : Derives (.opt (seq [tok .WHERE, .ref .conditions])) word) :
    Passes [Goal.semiWhere] word (.rParen :: rest) := by
  rcases Derives.opt_iff.mp derives with rfl | filter
  · exact .expand rfl .nil
  · obtain ⟨conditions, rfl, body⟩ := Derives.seq_tok_cons_iff.mp filter
    have passes : Passes [Goal.whereExprs] conditions (.rParen :: rest) :=
      inner shorter (Derives.seq_singleton_iff.mp body) (by simp [Closes])
    exact .shift rfl passes.leaveLast

theorem semiJoin_passes {n : Nat} (inner : ReadsConditions n) (shorter : word.length ≤ n)
    (derives : Derives (.ref .semiJoin) word) :
    Passes [Goal.inBody] word (.rParen :: rest) := by
  simp only [Derives.ref_iff, Phrase.rule, Derives.seq_tok_cons_iff] at derives
  obtain ⟨_, rfl, body⟩ := derives
  obtain ⟨path, _, rfl, field, source⟩ := Derives.seq_cons_iff.mp body
  obtain ⟨_, rfl, behind⟩ := Derives.seq_tok_cons_iff.mp source
  obtain ⟨objects, filter, rfl, listed, tail⟩ := Derives.seq_cons_iff.mp behind
  have filtered := Derives.seq_singleton_iff.mp tail
  have ends : PathEnds (.FROM :: (objects ++ filter) ++ .rParen :: rest) := by simp [PathEnds]
  have column : Passes [Goal.semiField] path (.FROM :: (objects ++ filter) ++ .rParen :: rest) := by
    have planned : plan .semiField
        (peek (path ++ (.FROM :: (objects ++ filter) ++ .rParen :: rest)))
        (peek ((path ++ (.FROM :: (objects ++ filter) ++ .rParen :: rest)).drop 1)) =
          .expand [Goal.field] := by
      simp only [plan, (atName_path field ends).1, if_true]
    exact .expand planned (field_passes field ends)
  have closes : Closes (filter ++ .rParen :: rest) := by
    rcases Derives.opt_iff.mp filtered with rfl | where_
    · simp [Closes]
    · obtain ⟨_, rfl, _⟩ := Derives.seq_tok_cons_iff.mp where_
      simp [Closes]
  have tail : Passes [Goal.semiWhere] filter (.rParen :: rest) := by
    refine semiWhere_passes inner ?_ filtered
    simp only [List.length_cons, List.length_append] at shorter
    omega
  have source := (fromPart_passes listed closes).cons tail.leaveLast
  exact .shift rfl (column.cons source)

theorem values_passes (derives : Derives (listOf (.ref .value)) word) :
    Passes [Goal.literalValue, Goal.moreValues] word (.rParen :: rest) :=
  listOf_passes (fun k => k ∉ [TokenKind.identifier, .dot, .lParen, .BY, .colon])
    (fun _ => rfl) (fun _ _ other => by simp [plan, other]) (by decide)
    (fun _ _ _ value apart => literalValue_passes value apart) derives (by simp) (by simp)

theorem inBody_passes {n : Nat} (inner : ReadsConditions n) (shorter : word.length ≤ n)
    (derives : Derives (.ref .operands) word) :
    Passes [Goal.inBody] word (.rParen :: rest) := by
  simp only [Derives.ref_iff, Phrase.rule, Derives.alt_cons_iff, Derives.alt_nil_iff,
    or_false] at derives
  rcases derives with join | list
  · exact semiJoin_passes inner shorter (Derives.ref_iff.mpr join)
  · have planned : plan .inBody (peek (word ++ .rParen :: rest))
        (peek ((word ++ .rParen :: rest).drop 1)) =
          .expand [Goal.literalValue, Goal.moreValues] := by
      obtain ⟨first, after, rfl, value, _⟩ := Derives.listOf_iff.mp list
      have starts := value_starts (after ++ .rParen :: rest) value
      simp_all [plan]
    exact .expand planned (values_passes list)

theorem comparison_passes {n : Nat} (inner : ReadsConditions n) (shorter : word.length ≤ n)
    (derives : Derives (.ref .comparison) word) (apart : Apart rest) :
    Passes [Goal.comparison] word rest := by
  simp only [Derives.ref_iff (p := .comparison), Phrase.rule, Derives.alt_cons_iff,
    Derives.alt_nil_iff, or_false, Derives.seq_tok_cons_iff, Derives.seq_singleton_iff] at derives
  rcases derives with valued | ⟨_, rfl, pattern⟩ | listed
  · obtain ⟨first, second, rfl, sign, value⟩ := Derives.seq_cons_iff.mp valued
    exact sign_passes sign (Derives.seq_singleton_iff.mp value) apart
  · obtain ⟨k, member, rfl⟩ := Derives.any_iff.mp pattern
    exact .shift rfl (.leave (likeLiteral_passes member))
  · obtain ⟨first, second, rfl, membership, list⟩ := Derives.seq_cons_iff.mp listed
    obtain ⟨inside, rfl, operands⟩ := Derives.parens_iff.mp (Derives.seq_singleton_iff.mp list)
    have body : Passes [Goal.inBody] inside (.rParen :: rest) := by
      refine inBody_passes inner ?_ operands
      simp only [List.length_cons, List.length_append] at shorter
      omega
    have closed : Passes [token .rParen, .leave] [.rParen] rest := .token (.leave .nil)
    have list : Passes [Goal.inList] (.lParen :: (inside ++ [.rParen])) rest :=
      .shift rfl (body.cons closed)
    exact membership_passes membership list

/-- An operator follows the operand of a condition. -/
theorem comparison_pathEnds (derives : Derives (.ref .comparison) word) :
    PathEnds (word ++ rest) := by
  simp only [Derives.ref_iff, Phrase.rule, Derives.alt_cons_iff, Derives.alt_nil_iff, or_false,
    Derives.seq_tok_cons_iff, Derives.seq_cons_iff (a := .ref _), Derives.any_iff] at derives
  rcases derives with ⟨_, _, rfl, ⟨k, member, rfl⟩ | ⟨_, rfl, _⟩ | ⟨_, rfl, _⟩, _⟩ | ⟨_, rfl, _⟩ |
    ⟨_, _, rfl, ⟨k, member, rfl⟩ | ⟨_, rfl, _⟩, _⟩
  · revert k
    simp [PathEnds]
  · simp [PathEnds]
  · simp [PathEnds]
  · simp [PathEnds]
  · revert k
    simp [PathEnds]
  · simp [PathEnds]

theorem signedNumber_passes (derives : Derives (.ref .number) word) :
    Passes [Goal.signedNumber] word rest := by
  obtain ⟨sign, digits, rfl, signed, number⟩ :=
    Derives.seq_cons_iff.mp (Derives.ref_iff.mp derives)
  obtain ⟨k, member, rfl⟩ := Derives.any_iff.mp (Derives.seq_singleton_iff.mp number)
  have absent : peek ([k] ++ rest) ∉ [TokenKind.minus] := by
    revert k
    simp
  exact .expand rfl ((maybe_passes signed absent).cons (number_passes member))

theorem geolocation_passes (derives : Derives (.ref .location) word) :
    Passes [Goal.geolocation] word rest := by
  obtain ⟨_, rfl, body⟩ := Derives.seq_tok_cons_iff.mp (Derives.ref_iff.mp derives)
  obtain ⟨_, rfl, inside⟩ := Derives.parens_iff.mp (Derives.seq_singleton_iff.mp body)
  obtain ⟨latitude, _, rfl, north, behind⟩ := Derives.seq_cons_iff.mp inside
  obtain ⟨longitude, rfl, east⟩ := Derives.seq_tok_cons_iff.mp behind
  have closed : Passes [token .rParen] [.rParen] rest := .token .nil
  have second : Passes [Goal.signedNumber, token .rParen] (longitude ++ [.rParen]) rest :=
    (signedNumber_passes (Derives.seq_singleton_iff.mp east)).cons closed
  have first := (signedNumber_passes north).cons (second.token (k := .comma))
  have same : (latitude ++ .comma :: longitude) ++ [.rParen] =
      latitude ++ .comma :: (longitude ++ [TokenKind.rParen]) := by simp
  rw [same]
  exact .shift rfl first.token

theorem distance_passes {after : List TokenKind} (derives : Derives (.ref .distance) word)
    (comparison : Passes [Goal.comparison] after rest) :
    Passes [Goal.whereExpr] (word ++ after) rest := by
  obtain ⟨_, rfl, body⟩ := Derives.seq_tok_cons_iff.mp (Derives.ref_iff.mp derives)
  obtain ⟨_, rfl, inside⟩ := Derives.parens_iff.mp (Derives.seq_singleton_iff.mp body)
  obtain ⟨path, _, rfl, field, behind⟩ := Derives.seq_cons_iff.mp inside
  obtain ⟨_, rfl, place⟩ := Derives.seq_tok_cons_iff.mp behind
  obtain ⟨location, _, rfl, located, unit⟩ := Derives.seq_cons_iff.mp place
  obtain ⟨_, rfl, text⟩ := Derives.seq_tok_cons_iff.mp unit
  obtain rfl := Derives.tok_iff.mp (Derives.seq_singleton_iff.mp text)
  have closed : Passes [token .rParen, .leave, Goal.comparison, .leave] (.rParen :: after) rest :=
    .token (.leave comparison.leaveLast)
  have united : Passes [Goal.one .string .distanceUnit, token .rParen, .leave, Goal.comparison,
      .leave] ([.string] ++ .rParen :: after) rest := Passes.one.cons closed
  have ends : PathEnds ((.comma :: (location ++ .comma :: ([.string] ++ .rParen :: after))) ++
      rest) := by simp [PathEnds]
  have placed := (geolocation_passes located).cons (united.token (k := .comma))
  have inner := (field_passes field ends).cons placed.token
  have same : .DISTANCE :: .lParen :: ((path ++ .comma :: (location ++ .comma :: [.string])) ++
      [.rParen]) ++ after = .DISTANCE :: .lParen :: (path ++ .comma :: (location ++
        .comma :: ([TokenKind.string] ++ .rParen :: after))) := by simp
  rw [same]
  exact .shift rfl inner.token

theorem whereExpr_passes {after : List TokenKind} (derives : Derives (.ref .operand) word)
    (ends : PathEnds (after ++ rest)) (comparison : Passes [Goal.comparison] after rest) :
    Passes [Goal.whereExpr] (word ++ after) rest := by
  simp only [Derives.ref_iff (p := .operand), Phrase.rule, Derives.alt_cons_iff,
    Derives.alt_nil_iff, or_false] at derives
  rcases derives with distance | call | path
  · exact distance_passes distance comparison
  · have planned : plan .whereExpr (peek (word ++ (after ++ rest)))
        (peek ((word ++ (after ++ rest)).drop 1)) =
          .expand [.enter .whereExpr, Goal.functionCall, Goal.comparison, .leave] := by
      have called := atCall_call (after ++ rest) call
      obtain ⟨k, inside, rfl, named, _⟩ := call_starts call
      have other : k ≠ .DISTANCE := by
        rintro rfl
        exact absurd named (by decide)
      simp_all [plan]
    rw [← List.append_assoc] at planned
    exact .expand planned ((functionCall_passes call).cons comparison).leaveLast.enter
  · obtain ⟨named, uncalled⟩ := atName_path path ends
    have planned : plan .whereExpr (peek (word ++ (after ++ rest)))
        (peek ((word ++ (after ++ rest)).drop 1)) =
          .expand [.enter .whereExpr, Goal.field, Goal.comparison, .leave] := by
      have other : peek (word ++ (after ++ rest)) ≠ .DISTANCE := by
        intro same
        simp [atName, softKeywords, same] at named
      simp only [plan, named, uncalled, other, beq_iff_eq, Bool.false_eq_true, if_true, if_false]
    rw [← List.append_assoc] at planned
    exact .expand planned ((field_passes path ends).cons comparison).leaveLast.enter

/-- Neither `NOT` nor a parenthesis opens an operand. -/
theorem operand_starts (rest : List TokenKind) (derives : Derives (.ref .operand) word) :
    peek (word ++ rest) ∉ [TokenKind.NOT, .lParen] := by
  simp only [Derives.ref_iff (p := .operand), Phrase.rule, Derives.alt_cons_iff,
    Derives.alt_nil_iff, or_false] at derives
  rcases derives with distance | call | path
  · obtain ⟨_, rfl, _⟩ := Derives.seq_tok_cons_iff.mp (Derives.ref_iff.mp distance)
    simp
  · obtain ⟨k, inside, rfl, called, _⟩ := call_starts call
    simp only [List.cons_append, peek_cons, List.mem_cons, List.not_mem_nil, or_false]
    rintro (rfl | rfl) <;> exact absurd called (by decide)
  · obtain ⟨_, names, rfl, name, _⟩ := Derives.seq_cons_iff.mp (Derives.ref_iff.mp path)
    obtain ⟨k, member, rfl⟩ := Derives.any_iff.mp (Derives.ref_iff.mp name)
    revert k
    simp

theorem condition_passes {n : Nat} {word : List TokenKind} (inner : ReadsConditions n)
    (shorter : word.length ≤ n) (derives : Derives (.ref .condition) word)
    (apart : Apart rest) : Passes [Goal.condition] word rest := by
  rw [Derives.ref_iff] at derives
  simp only [Phrase.rule, Derives.alt_cons_iff, Derives.alt_nil_iff, or_false,
    Derives.seq_tok_cons_iff, Derives.seq_singleton_iff] at derives
  rcases derives with ⟨negated, rfl, body⟩ | parenthesised | compared
  · exact .shift rfl (condition_passes inner (by simp only [List.length_cons] at shorter; omega)
      body apart)
  · obtain ⟨inside, rfl, conditions⟩ := Derives.parens_iff.mp parenthesised
    have body : Passes [Goal.whereExprs] inside (.rParen :: rest) := by
      refine inner ?_ conditions (by simp [Closes])
      simp only [List.length_cons, List.length_append] at shorter
      omega
    have closed : Passes [token .rParen] [.rParen] rest := .token .nil
    exact .shift rfl (body.cons closed)
  · obtain ⟨operand, after, rfl, first, second⟩ := Derives.seq_cons_iff.mp compared
    have comparison := Derives.seq_singleton_iff.mp second
    have starts := operand_starts (after ++ rest) first
    have planned : plan .condition (peek (operand ++ after ++ rest))
        (peek ((operand ++ after ++ rest).drop 1)) = .expand [Goal.whereExpr] := by
      simp_all [plan]
    have right : Passes [Goal.comparison] after rest := by
      refine comparison_passes inner ?_ comparison apart
      simp only [List.length_append] at shorter
      omega
    exact .expand planned (whereExpr_passes first (comparison_pathEnds comparison) right)
termination_by word.length
decreasing_by
  simp only [*, List.length_cons]
  omega

theorem moreConditions_passes {n : Nat} {word : List TokenKind} (inner : ReadsConditions n)
    (shorter : word.length ≤ n)
    (derives : Derives (.many (seq [.any [.AND, .OR], .ref .condition])) word)
    (closes : Closes rest) : Passes [Goal.moreConditions] word rest := by
  rcases Derives.many_iff.mp derives with rfl | ⟨_, later, rfl, head, tail⟩
  · have planned : plan .moreConditions (peek rest) (peek (rest.drop 1)) = .expand [] := by
      have other : peek rest ∉ [TokenKind.AND, .OR] := closes.not_mem (by decide)
      simp_all [plan]
    exact .expand planned .nil
  · obtain ⟨k, member, condition, rfl, body⟩ := Derives.seq_any_cons_iff.mp head
    simp only [List.length_cons, List.length_append] at shorter
    have apart : Apart (later ++ rest) := by
      rcases Derives.many_iff.mp tail with rfl | ⟨_, _, rfl, next, _⟩
      · exact closes.apart
      · obtain ⟨k, member, _, rfl, _⟩ := Derives.seq_any_cons_iff.mp next
        revert k
        simp [Apart]
    have planned (k₂ : TokenKind) : plan .moreConditions k k₂ =
        .shift [] [Goal.condition, Goal.moreConditions] := by
      revert k
      simp [plan]
    have first := condition_passes inner (by omega) (Derives.seq_singleton_iff.mp body) apart
    exact .shift (planned _)
      (first.cons (moreConditions_passes inner (by omega) tail closes))
termination_by word.length
decreasing_by
  simp only [*, List.length_append, List.length_cons]
  omega

theorem conditions_passes {word rest : List TokenKind} (derives : Derives (.ref .conditions) word)
    (closes : Closes rest) : Passes [Goal.whereExprs] word rest := by
  have inner : ReadsConditions word.length := fun shorter derives closes =>
    conditions_passes derives closes
  obtain ⟨first, later, same, head, more⟩ := Derives.seq_cons_iff.mp (Derives.ref_iff.mp derives)
  have tail := Derives.seq_singleton_iff.mp more
  have bound : first.length ≤ word.length ∧ later.length ≤ word.length := by
    simp only [same, List.length_append]
    omega
  have apart : Apart (later ++ rest) := by
    rcases Derives.many_iff.mp tail with rfl | ⟨_, _, rfl, next, _⟩
    · exact closes.apart
    · obtain ⟨k, member, _, rfl, _⟩ := Derives.seq_any_cons_iff.mp next
      revert k
      simp [Apart]
  have inside := (condition_passes inner bound.1 head apart).cons
    (moreConditions_passes inner bound.2 tail closes)
  rw [same]
  exact .expand rfl inside.leaveLast.enter
termination_by word.length

theorem groupByExprs_passes (derives : Derives (listOf (.ref .argument)) word)
    (closes : Closes rest) : Passes [Goal.groupByExprs] word rest := by
  have items : Passes [Goal.groupItem, Goal.moreGroups] word rest :=
    listOf_passes (fun k => k ∉ [TokenKind.dot, .lParen, .BY]) (fun _ => rfl)
      (fun _ _ other => by simp [plan, other]) (by decide)
      (fun _ _ _ item ends => groupItem_passes item ends) derives closes.apart.pathEnds
      (fun same => by simp [Closes, same] at closes)
  exact .expand rfl items.leaveLast.enter

/-- The first token of a call or a path. -/
theorem argument_starts (rest : List TokenKind) (derives : Derives (.ref .argument) word) :
    peek (word ++ rest) ∉ [TokenKind.ROLLUP, .CUBE] := by
  rcases Derives.argument_iff.mp derives with call | path
  · obtain ⟨k, inside, rfl, called, _⟩ := call_starts call
    simp only [List.cons_append, peek_cons, List.mem_cons, List.not_mem_nil, or_false]
    rintro (rfl | rfl) <;> exact absurd called (by decide)
  · obtain ⟨_, names, rfl, name, _⟩ := Derives.seq_cons_iff.mp (Derives.ref_iff.mp path)
    obtain ⟨k, member, rfl⟩ := Derives.any_iff.mp (Derives.ref_iff.mp name)
    revert k
    simp

theorem grouping_passes (derives : Derives (.ref .group) word) (closes : Closes rest) :
    Passes [Goal.grouping] word rest := by
  rw [Derives.ref_iff] at derives
  simp only [Phrase.rule, Derives.alt_cons_iff, Derives.alt_nil_iff, or_false,
    Derives.seq_any_cons_iff, Derives.seq_singleton_iff] at derives
  rcases derives with ⟨k, member, _, rfl, parenthesised⟩ | plain
  · obtain ⟨inside, rfl, list⟩ := Derives.parens_iff.mp parenthesised
    have planned (k₂ : TokenKind) : plan .grouping k k₂ =
        .shift [] [token .lParen, Goal.groupByExprs, token .rParen] := by
      revert k
      simp [plan]
    have closed : Passes [token .rParen] [.rParen] rest := .token .nil
    have body : Passes [Goal.groupByExprs, token .rParen] (inside ++ [.rParen]) rest :=
      (groupByExprs_passes list (by simp [Closes])).cons closed
    exact .shift (planned _) body.token
  · have planned : plan .grouping (peek (word ++ rest)) (peek ((word ++ rest).drop 1)) =
        .expand [Goal.groupByExprs] := by
      obtain ⟨first, later, rfl, item, _⟩ := Derives.listOf_iff.mp plain
      have starts := argument_starts (later ++ rest) item
      simp_all [plan]
    exact .expand planned (groupByExprs_passes plain closes)

theorem nulls_passes (derives : Derives (.opt (seq [tok .NULLS, .any [.FIRST, .LAST]])) word)
    (absent : peek rest ≠ .NULLS) : Passes [Goal.nulls] word rest := by
  rcases Derives.opt_iff.mp derives with rfl | nulls
  · have planned : plan .nulls (peek rest) (peek (rest.drop 1)) = .expand [] := by
      simp [plan, absent]
    exact .expand planned .nil
  · obtain ⟨_, rfl, order⟩ := Derives.seq_tok_cons_iff.mp nulls
    obtain ⟨k, member, rfl⟩ := Derives.any_iff.mp (Derives.seq_singleton_iff.mp order)
    have planned (k₂ : TokenKind) : plan .nullsOrder k k₂ = .shift [] [] := by
      revert k
      simp [plan]
    exact .shift rfl (.shift (planned _) .nil)

theorem orderByExpr_passes (derives : Derives (.ref .order) word)
    (ends : peek rest ∉ [TokenKind.dot, .lParen, .BY, .ASC, .DESC, .NULLS]) :
    Passes [Goal.orderByExpr] word rest := by
  obtain ⟨item, _, rfl, argument, behind⟩ := Derives.seq_cons_iff.mp (Derives.ref_iff.mp derives)
  obtain ⟨direction, nulls, rfl, directed, placed⟩ := Derives.seq_cons_iff.mp behind
  have placed := Derives.seq_singleton_iff.mp placed
  have next : peek (nulls ++ rest) ∉ [TokenKind.dot, .lParen, .BY, .ASC, .DESC] := by
    rcases Derives.opt_iff.mp placed with rfl | word
    · simp_all
    · obtain ⟨_, rfl, _⟩ := Derives.seq_tok_cons_iff.mp word
      simp
  have item_ends : PathEnds (direction ++ nulls ++ rest) := by
    rcases Derives.opt_iff.mp directed with rfl | word
    · simp_all [PathEnds]
    · obtain ⟨k, member, rfl⟩ := Derives.any_iff.mp word
      revert k
      simp [PathEnds]
  have tail : Passes [Goal.maybe [.ASC, .DESC], Goal.nulls, .leave] (direction ++ nulls) rest :=
    (maybe_passes directed (by simp_all)).cons (nulls_passes placed (by simp_all)).leaveLast
  exact .expand rfl (((groupItem_passes argument item_ends).cons tail.leave).enter.enter)

theorem orders_passes (derives : Derives (listOf (.ref .order)) word) (closes : Closes rest) :
    Passes [Goal.orderByExpr, Goal.moreOrders] word rest :=
  listOf_passes (fun k => k ∉ [TokenKind.dot, .lParen, .BY, .ASC, .DESC, .NULLS])
    (fun _ => rfl) (fun _ _ other => by simp [plan, other]) (by decide)
    (fun _ _ _ order ends => orderByExpr_passes order ends) derives (closes.not_mem (by decide))
    (fun same => by simp [Closes, same] at closes)

theorem stats_passes (derives : Derives (listOf (.ref .name)) word) (closes : Closes rest) :
    Passes [Goal.identifier, Goal.moreStats] word rest :=
  listOf_passes (fun k => k ≠ .BY) (fun _ => rfl) (fun _ _ other => by simp [plan, other])
    (by decide) (fun _ _ _ name alone => identifier_passes name alone) derives
    (fun same => by simp [Closes, same] at closes) (fun same => by simp [Closes, same] at closes)

theorem purposes_passes {word : List TokenKind} (derives : Derives (listOf (.ref .purpose)) word)
    (closes : Closes rest) : Passes [Goal.purposes] word rest := by
  obtain ⟨_, later, rfl, purpose, more⟩ := Derives.listOf_iff.mp derives
  obtain ⟨k, member, rfl⟩ := Derives.any_iff.mp (Derives.ref_iff.mp purpose)
  have planned (k₂ : TokenKind) : plan .purposes k k₂ = .shift [] [Goal.morePurposes] := by
    revert k
    simp [plan]
  rcases Derives.more_iff.mp more with rfl | ⟨first, after, rfl, head, tail⟩
  · have stops : plan .morePurposes (peek rest) (peek (rest.drop 1)) = .expand [] := by
      have other : peek rest ∉ [TokenKind.comma] := closes.not_mem (by decide)
      simp_all [plan]
    exact .shift (planned _) (.expand stops .nil)
  · have rest_passes := purposes_passes (Derives.listOf_iff.mpr ⟨first, after, rfl, head, tail⟩)
      closes
    exact .shift (planned _) (.shift rfl rest_passes)
termination_by word.length
decreasing_by
  simp only [*, List.length_append, List.length_cons]
  omega

/-- The parentheses of a balanced word leave the reader at the depth it had before. -/
theorem balanced_passes {depth : Nat} {word after : List TokenKind}
    (derives : Derives (.ref .balanced) word)
    (passes : Passes [Goal.withBody depth] after rest) :
    Passes [Goal.withBody depth] (word ++ after) rest := by
  rcases Derives.many_iff.mp (Derives.ref_iff.mp derives) with
    rfl | ⟨first, later, rfl, head, more⟩
  · exact passes
  have tail := balanced_passes (Derives.ref_iff.mpr more) passes
  simp only [Derives.alt_cons_iff, Derives.alt_nil_iff, or_false, Derives.any_iff,
    Derives.parens_iff] at head
  rcases head with ⟨k, member, rfl⟩ | ⟨inside, rfl, body⟩
  · have planned (k₂ : TokenKind) :
        plan (.withBody depth) k k₂ = .shift [] [Goal.withBody depth] := by
      revert k
      simp [plan, withPlan]
    exact .shift (planned _) tail
  · have closing : Passes [Goal.withBody (depth + 1)] (.rParen :: (later ++ after)) rest :=
      .shift rfl tail
    have opened := balanced_passes body closing
    have same : (.lParen :: (inside ++ [.rParen])) ++ later ++ after =
        .lParen :: (inside ++ TokenKind.rParen :: (later ++ after)) := by simp
    rw [same]
    exact .shift rfl opened
termination_by word.length
decreasing_by
  · have nonempty : 0 < first.length := by
      simp only [Derives.alt_cons_iff, Derives.alt_nil_iff, or_false, Derives.any_iff,
        Derives.parens_iff] at head
      rcases head with ⟨k, _, same⟩ | ⟨inside, same, _⟩ <;> simp [same]
    simp only [*, List.length_append]
    omega
  · simp only [*, List.length_append, List.length_cons]
    omega

theorem filter_ends {depth : Nat} (closes : Closes rest)
    (unopened : depth = 0 ∨ peek rest ≠ .rParen) : Passes [Goal.withBody depth] [] rest := by
  have planned : plan (.withBody depth) (peek rest) (peek (rest.drop 1)) = .expand [] := by
    simp only [Closes, List.mem_cons, List.not_mem_nil, or_false] at closes
    rcases closes with same | same | same | same | same | same | same | same | same | same |
      same | same <;> simp_all [plan, withPlan]
  exact .expand planned .nil

theorem openFilter_passes {depth : Nat} {word : List TokenKind}
    (derives : Derives (.ref (.filter false)) word) (closes : Closes rest)
    (unclosed : peek rest ≠ .rParen) : Passes [Goal.withBody depth] word rest := by
  obtain ⟨balanced, opened, rfl, body, tail⟩ :=
    Derives.seq_cons_iff.mp (Derives.ref_iff.mp derives)
  refine balanced_passes body ?_
  rcases Derives.opt_iff.mp (Derives.seq_singleton_iff.mp tail) with rfl | deeper
  · exact filter_ends closes (.inr unclosed)
  · obtain ⟨inside, rfl, filter⟩ := Derives.seq_tok_cons_iff.mp deeper
    exact .shift rfl (openFilter_passes (Derives.seq_singleton_iff.mp filter) closes unclosed)
termination_by word.length
decreasing_by
  simp only [*, List.length_append, List.length_cons]
  omega

theorem filter_passes {enclosed : Bool} (derives : Derives (.ref (.filter enclosed)) word)
    (closes : Closes rest) (unclosed : enclosed = false → peek rest ≠ .rParen) :
    Passes [Goal.withBody 0] word rest := by
  cases enclosed with
  | true =>
    have body := balanced_passes (Derives.ref_iff.mp derives) (filter_ends closes (.inl rfl))
    rwa [List.append_nil] at body
  | false => exact openFilter_passes derives closes (unclosed rfl)

/-- A clause is its first token and a body; further clauses follow. -/
theorem clause_of_body {body later : List TokenKind}
    (planned : clausePlan k = .shift [rule] (items ++ [.leave, .goal .clauses]))
    (passes : Passes items body (later ++ rest)) (after : Passes [Goal.clauses] later rest) :
    Passes [Goal.clauses] (k :: body ++ later) rest :=
  .shift planned (passes.append after.leave)

theorem clause_passes {enclosed : Bool} {later : List TokenKind}
    (derives : Derives (.ref (.clause enclosed)) word) (after : Passes [Goal.clauses] later rest)
    (closes : Closes (later ++ rest))
    (unclosed : enclosed = false → peek (later ++ rest) ≠ .rParen) :
    Passes [Goal.clauses] (word ++ later) rest := by
  rw [Derives.ref_iff] at derives
  simp only [Phrase.rule, Derives.alt_cons_iff, Derives.alt_nil_iff, or_false,
    Derives.seq_tok_cons_iff, Derives.seq_any_cons_iff, Derives.seq_singleton_iff] at derives
  rcases derives with ⟨_, rfl, _, rfl, name⟩ | ⟨k, member, body, rfl, conditions⟩ |
    ⟨body, rfl, filter⟩ | ⟨_, rfl, body, rfl, group⟩ | ⟨_, rfl, body, rfl, orders⟩ |
    ⟨k, member, _, rfl, count⟩ | ⟨body, rfl, purposes⟩ | ⟨body, rfl, stats⟩
  · have alone : peek (later ++ rest) ≠ .BY := fun same => by simp [Closes, same] at closes
    exact clause_of_body rfl (.token (identifier_passes name alone)) after
  · have passes := conditions_passes conditions closes
    simp only [List.mem_cons, List.not_mem_nil, or_false] at member
    rcases member with rfl | rfl
    · exact clause_of_body rfl passes after
    · exact clause_of_body rfl passes after
  · exact clause_of_body rfl (filter_passes filter closes unclosed) after
  · exact clause_of_body rfl (.token (grouping_passes group closes)) after
  · exact clause_of_body rfl (.token (orders_passes orders closes)) after
  · obtain ⟨n, number, rfl⟩ := Derives.any_iff.mp count
    have planned (k₂ : TokenKind) : plan .rowCount n k₂ = .shift [] [] := by
      revert n
      simp [plan]
    have passes : Passes [Goal.rowCount] [n] (later ++ rest) := .shift (planned _) .nil
    simp only [List.mem_cons, List.not_mem_nil, or_false] at member
    rcases member with rfl | rfl
    · exact clause_of_body rfl passes after
    · exact clause_of_body rfl passes after
  · exact clause_of_body rfl (purposes_passes purposes closes) after
  · exact clause_of_body rfl (stats_passes stats closes) after

/-- A clause opens with its keyword. -/
theorem clause_starts {enclosed : Bool} (derives : Derives (.ref (.clause enclosed)) word) :
    ∃ k body, word = k :: body ∧ k ∈ [TokenKind.USING, .WHERE, .HAVING, .WITH, .GROUP, .ORDER,
      .LIMIT, .OFFSET, .FOR, .UPDATE] := by
  rw [Derives.ref_iff] at derives
  simp only [Phrase.rule, Derives.alt_cons_iff, Derives.alt_nil_iff, or_false,
    Derives.seq_tok_cons_iff, Derives.seq_any_cons_iff] at derives
  rcases derives with ⟨_, rfl, _⟩ | ⟨k, member, _, rfl, _⟩ | ⟨_, rfl, _⟩ | ⟨_, rfl, _⟩ |
    ⟨_, rfl, _⟩ | ⟨k, member, _, rfl, _⟩ | ⟨_, rfl, _⟩ | ⟨_, rfl, _⟩ <;>
    refine ⟨_, _, rfl, ?_⟩
  case inr.inl | inr.inr.inr.inr.inr.inl =>
    revert k
    decide
  all_goals decide

theorem clause_next {enclosed : Bool} (rest : List TokenKind)
    (derives : Derives (.ref (.clause enclosed)) word) :
    Closes (word ++ rest) ∧ peek (word ++ rest) ≠ .rParen := by
  obtain ⟨k, body, rfl, member⟩ := clause_starts derives
  simp only [Closes, List.cons_append, peek_cons]
  clear derives
  revert k
  decide

theorem manyClauses_passes {word last : List TokenKind}
    (derives : Derives (.many (.ref (.clause false))) word)
    (after : Passes [Goal.clauses] last rest) (closes : Closes (last ++ rest))
    (unclosed : peek (last ++ rest) ≠ .rParen) :
    Passes [Goal.clauses] (word ++ last) rest := by
  rcases Derives.many_iff.mp derives with rfl | ⟨first, later, rfl, head, more⟩
  · exact after
  have tail := manyClauses_passes more after closes unclosed
  have next : Closes (later ++ last ++ rest) ∧ peek (later ++ last ++ rest) ≠ .rParen := by
    rcases Derives.many_iff.mp more with rfl | ⟨second, _, rfl, clause, _⟩
    · exact ⟨closes, unclosed⟩
    · simpa using clause_next (_ ++ last ++ rest) clause
  rw [List.append_assoc]
  exact clause_passes head tail next.1 fun _ => next.2
termination_by word.length
decreasing_by
  obtain ⟨k, body, opens, _⟩ := clause_starts head
  simp only [*, List.length_append, List.length_cons]
  omega

theorem closes_of_stops (stops : peek rest ∈ [TokenKind.eof, .rParen]) : Closes rest := by
  simp only [List.mem_cons, List.not_mem_nil, or_false] at stops
  rcases stops with same | same <;> simp [Closes, same]

theorem clauses_next {enclosed : Bool} (derives : Derives (clauses enclosed) word)
    (stops : peek rest ∈ [TokenKind.eof, .rParen]) : Closes (word ++ rest) := by
  have many {first : List TokenKind} (derives : Derives (.many (.ref (.clause false))) first)
      {after : List TokenKind} (closes : Closes after) : Closes (first ++ after) := by
    rcases Derives.many_iff.mp derives with rfl | ⟨_, later, rfl, clause, _⟩
    · exact closes
    · rw [List.append_assoc]
      exact (clause_next _ clause).1
  cases enclosed with
  | false => exact many derives (closes_of_stops stops)
  | true =>
    rcases Derives.opt_iff.mp derives with rfl | some
    · exact closes_of_stops stops
    · obtain ⟨first, last, rfl, clauses, ending⟩ := Derives.seq_cons_iff.mp some
      rw [List.append_assoc]
      exact many clauses (clause_next rest (Derives.seq_singleton_iff.mp ending)).1

theorem clauses_passes {enclosed : Bool} (derives : Derives (clauses enclosed) word)
    (stops : peek rest ∈ [TokenKind.eof, .rParen])
    (unclosed : enclosed = false → peek rest ≠ .rParen) :
    Passes [Goal.clauses] word rest := by
  have closes := closes_of_stops stops
  have ended : Passes [Goal.clauses] [] rest := by
    have planned : plan .clauses (peek rest) (peek (rest.drop 1)) = .expand [] := by
      simp only [List.mem_cons, List.not_mem_nil, or_false] at stops
      rcases stops with same | same <;> simp [plan, clausePlan, same]
    exact .expand planned .nil
  cases enclosed with
  | false =>
    have passes := manyClauses_passes derives ended closes (unclosed rfl)
    rwa [List.append_nil] at passes
  | true =>
    rcases Derives.opt_iff.mp derives with rfl | derives
    · exact ended
    · obtain ⟨many, last, rfl, clauses, ending⟩ := Derives.seq_cons_iff.mp derives
      have ending := Derives.seq_singleton_iff.mp ending
      have final : Passes [Goal.clauses] (last ++ []) rest :=
        clause_passes ending ended closes (by simp)
      rw [List.append_nil] at final
      obtain ⟨starts, open_⟩ := clause_next rest ending
      exact manyClauses_passes clauses final starts open_

/-- Queries in parentheses of fewer than `n` tokens are read. -/
def ReadsQueries (n : Nat) : Prop :=
  ∀ {word rest : List TokenKind}, word.length < n → Derives (.ref (.query true)) word →
    Passes [Goal.innerQuery] word (.rParen :: rest)

theorem query_starts {enclosed : Bool} (rest : List TokenKind)
    (derives : Derives (.ref (.query enclosed)) word) : peek (word ++ rest) = .SELECT := by
  obtain ⟨_, rfl, _⟩ := Derives.seq_tok_cons_iff.mp (Derives.ref_iff.mp derives)
  rfl

theorem column_passes {n : Nat} (inner : ReadsQueries n) (shorter : word.length ≤ n)
    (derives : Derives (.ref .column) word) (apart : Apart rest) :
    Passes [Goal.selectExpr] word rest := by
  rw [Derives.ref_iff] at derives
  simp only [Phrase.rule, Derives.alt_cons_iff, Derives.alt_nil_iff, or_false] at derives
  rcases derives with parenthesised | called | plain
  · obtain ⟨query, rfl, body⟩ := Derives.parens_iff.mp parenthesised
    have planned : plan .subquery (peek (query ++ .rParen :: rest))
        (peek ((query ++ .rParen :: rest).drop 1)) = .expand [Goal.innerQuery] := by
      simp [plan, query_starts _ body]
    have passes : Passes [Goal.subquery] query (.rParen :: rest) := by
      refine .expand planned (inner ?_ body)
      simp only [List.length_cons, List.length_append] at shorter
      omega
    have closed : Passes [token .rParen, .leave] [.rParen] rest := .token (.leave .nil)
    exact .shift rfl (passes.cons closed)
  · obtain ⟨_, label, rfl, call, named⟩ := Derives.seq_cons_iff.mp called
    obtain ⟨k, inside, rfl, starts, argument⟩ := call_starts call
    have named := Derives.seq_singleton_iff.mp named
    have planned : plan .selectExpr k .lParen =
        .shift [.selectExpr] (callTail [Goal.alias, .leave]) := by
      have other : k ≠ .lParen := by
        rintro rfl
        exact absurd starts (by decide)
      simp [plan, starts, other]
    have tail : Passes [Goal.alias, .leave] label rest := (alias_passes named apart).leaveLast
    have same : k :: .lParen :: (inside ++ [.rParen]) ++ label =
        k :: .lParen :: (inside ++ .rParen :: label) := by simp
    rw [same]
    exact .shift planned (callTail_passes (argument_passes argument) tail)
  · obtain ⟨path, label, rfl, field, named⟩ := Derives.seq_cons_iff.mp plain
    have named := Derives.seq_singleton_iff.mp named
    have ends := alias_pathEnds named apart
    obtain ⟨starts, uncalled⟩ := atName_path field ends
    have planned : plan .selectExpr (peek (path ++ (label ++ rest)))
        (peek ((path ++ (label ++ rest)).drop 1)) =
          .expand [.enter .selectExpr, Goal.field, Goal.alias, .leave] := by
      have other : peek (path ++ (label ++ rest)) ≠ .lParen := by
        intro same
        simp [atName, softKeywords, same] at starts
      simp only [plan, starts, uncalled, other, beq_iff_eq, Bool.false_eq_true, if_true, if_false]
    rw [← List.append_assoc] at planned
    have inside := (field_passes field ends).cons (alias_passes named apart)
    exact .expand planned inside.leaveLast.enter

/-- A select list starts with a name, `COUNT` or a parenthesis. -/
theorem columns_start (derives : Derives (listOf (.ref .column)) word)
    (apart : Apart rest) :
    (atName (peek (word ++ rest)) (peek ((word ++ rest).drop 1)) ||
      peek (word ++ rest) == .COUNT || peek (word ++ rest) == .lParen) = true := by
  obtain ⟨first, later, rfl, column, more⟩ := Derives.listOf_iff.mp derives
  have next : Apart (later ++ rest) := by
    rcases Derives.more_iff.mp more with rfl | ⟨_, _, rfl, _, _⟩
    · exact apart
    · simp [Apart]
  rw [Derives.ref_iff] at column
  simp only [Phrase.rule, Derives.alt_cons_iff, Derives.alt_nil_iff, or_false] at column
  rcases column with parenthesised | called | plain
  · obtain ⟨query, rfl, _⟩ := Derives.parens_iff.mp parenthesised
    simp
  · obtain ⟨_, label, rfl, call, _⟩ := Derives.seq_cons_iff.mp called
    obtain ⟨k, inside, rfl, starts, _⟩ := call_starts call
    simp only [atCall, Bool.and_eq_true, Bool.or_eq_true] at starts
    rcases starts.1 with named | count
    · simp [named]
    · simp [count]
  · obtain ⟨path, label, rfl, field, named⟩ := Derives.seq_cons_iff.mp plain
    have ends := alias_pathEnds (Derives.seq_singleton_iff.mp named) next
    have starts := (atName_path field ends).1
    simp only [List.append_assoc] at starts ⊢
    simp only [starts, Bool.true_or]

theorem selectExprs_passes {n : Nat} (inner : ReadsQueries n) (shorter : word.length ≤ n)
    (derives : Derives (listOf (.ref .column)) word) (next : peek rest = .FROM) :
    Passes [Goal.selectExprs] word rest := by
  have apart : Apart rest := by simp [Apart, next]
  have columns : Passes [Goal.selectExpr, Goal.moreColumns] word rest :=
    listOf_passes (fun k => k ∉ [TokenKind.identifier, .dot, .lParen, .BY, .colon])
      (fun _ => rfl) (fun _ _ other => by simp [plan, other]) (by decide)
      (fun _ _ within column apart =>
        column_passes inner (Nat.le_trans within shorter) column apart)
      derives apart (by simp [next])
  have planned : plan .selectExprs (peek (word ++ rest)) (peek ((word ++ rest).drop 1)) =
      .expand [.enter .selectExprs, Goal.selectExpr, Goal.moreColumns, .leave] := by
    simp only [plan, columns_start derives apart, if_true]
  exact .expand planned columns.leaveLast.enter

/-- A query is read up to the end of the text or the parenthesis that closes it. -/
theorem query_passes {enclosed : Bool} {word rest : List TokenKind}
    (derives : Derives (.ref (.query enclosed)) word)
    (stops : peek rest ∈ [TokenKind.eof, .rParen])
    (unclosed : enclosed = false → peek rest ≠ .rParen) :
    Passes [Goal.innerQuery] word rest := by
  obtain ⟨_, same, body⟩ := Derives.seq_tok_cons_iff.mp (Derives.ref_iff.mp derives)
  obtain ⟨columns, _, rfl, selected, source⟩ := Derives.seq_cons_iff.mp body
  obtain ⟨_, rfl, behind⟩ := Derives.seq_tok_cons_iff.mp source
  obtain ⟨objects, clauses, rfl, listed, ending⟩ := Derives.seq_cons_iff.mp behind
  have tail := clauses_passes (Derives.seq_singleton_iff.mp ending) stops unclosed
  have closes := clauses_next (Derives.seq_singleton_iff.mp ending) stops
  have inner : ReadsQueries word.length := fun shorter query =>
    query_passes query (by simp) (by simp)
  have bound : columns.length ≤ word.length := by
    simp only [same, List.length_cons, List.length_append]
    omega
  have first : Passes [Goal.selectExprs] columns (.FROM :: (objects ++ clauses) ++ rest) :=
    selectExprs_passes inner bound selected rfl
  have second := (fromPart_passes listed closes).cons tail.leaveLast
  rw [same]
  exact .expand rfl (Passes.token (first.cons second)).enter
termination_by word.length

/-- Every word of the language is read without a problem. -/
theorem clean_of_derives {kinds : List TokenKind} (derives : Derives (.ref (.query false)) kinds) :
    Clean (events kinds) := by
  have passes : Passes [Goal.innerQuery] kinds [] := query_passes derives (by simp) (by simp)
  have ended : Clean (run [] [Goal.trailing, .endMark, .leave]) := by
    rw [clean_expand rfl]
    simp
  have inside := passes _ ended
  rw [List.append_nil] at inside
  rw [events, clean_expand rfl]
  simpa using inside

end SoqlAssist.Grammar
