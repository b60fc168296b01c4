import SoqlAssist.Proofs.Grammar.Phrase
import SoqlAssist.Proofs.Grammar.Run

/-!
A run without problems has read words of the language. Each goal has a form, an expression that its
words belong to; the one choice that looks past a goal's own tokens is whether a closing parenthesis
follows, and that is the mark of an enclosed phrase.
-/
namespace SoqlAssist.Grammar

open Pattern

variable {g : Goal} {k k₂ : TokenKind} {word tail rest : List TokenKind}
  {stack items : List Item}

/-- The rest of a filter after `WITH` that has `depth` parentheses open. -/
def filterFrom (enclosed : Bool) : (depth : Nat) → Pattern
  | 0 => .ref (.filter enclosed)
  | depth + 1 =>
    .orElse (seq [.ref .balanced, tok .rParen, filterFrom enclosed depth])
      (if enclosed then .any [] else .ref (.filter false))

/-- The words of a goal; `enclosed` if a closing parenthesis comes right after them. -/
@[simp] def Goal.form (enclosed : Bool) : Goal → Pattern
  | .query | .innerQuery | .subquery => .ref (.query enclosed)
  | .trailing => .empty
  | .skipRest => .many (.any TokenKind.all)
  | .selectExprs => listOf (.ref .column)
  | .moreColumns => more (.ref .column)
  | .selectExpr => .ref .column
  | .functionCall => .ref .call
  | .argument => .opt (.ref .argument)
  | .alias => .opt (tok .identifier)
  | .field | .semiField | .afterDot => .ref .path
  | .dotted => .many (seq [tok .dot, .ref .name])
  | .identifier => .ref .name
  | .fromPart => seq [tok .FROM, listOf (.ref .object)]
  | .fromExprs => listOf (.ref .object)
  | .moreObjects => more (.ref .object)
  | .fromExpr => .ref .object
  | .clauses => Pattern.clauses enclosed
  | .whereExprs => .ref .conditions
  | .moreConditions => .many (seq [.any [.AND, .OR], .ref .condition])
  | .condition => .ref .condition
  | .whereExpr => seq [.ref .operand, .ref .comparison]
  | .comparison => .ref .comparison
  | .literalValue => .ref .value
  | .rangeCount => .opt (seq [tok .colon, tok .integer])
  | .number => .any [.integer, .decimal]
  | .signedNumber => .ref .number
  | .likeLiteral => .any [.string, .bind]
  | .inList => parens (.ref .operands)
  | .inBody => .ref .operands
  | .moreValues => more (.ref .value)
  | .semiWhere => .opt (seq [tok .WHERE, .ref .conditions])
  | .geolocation => .ref .location
  | .withBody depth => filterFrom enclosed depth
  | .grouping => .ref .group
  | .groupByExprs => listOf (.ref .argument)
  | .moreGroups => more (.ref .argument)
  | .groupItem => .ref .argument
  | .orderByExpr => .ref .order
  | .moreOrders => more (.ref .order)
  | .nulls => .opt (seq [tok .NULLS, .any [.FIRST, .LAST]])
  | .nullsOrder => .any [.FIRST, .LAST]
  | .rowCount => .any [.integer, .bind]
  | .purposes => listOf (.ref .purpose)
  | .morePurposes => more (.ref .purpose)
  | .moreStats => more (.ref .name)
  | .one k _ => tok k
  | .maybe ks => .opt (.any ks)

/-- The goal ends here without a token and without a problem, though its form has no empty word. -/
@[simp] def Goal.idle (rest : List TokenKind) : Goal → Bool
  | .functionCall => !atCall (peek rest) (peek (rest.drop 1))
  | .one k _ => rest.isEmpty && k == .eof
  | _ => false

/-- The goal takes `word` when `rest` comes after it. -/
@[simp] def Goal.Reads (g : Goal) (word rest : List TokenKind) : Prop :=
  Derives (g.form (peek rest == .rParen)) word ∨ word = [] ∧ g.idle rest = true

theorem Goal.Reads.derives (reads : g.Reads word rest) (active : g.idle rest = false) :
    Derives (g.form (peek rest == .rParen)) word := by
  rcases reads with derives | ⟨_, idle⟩
  · exact derives
  · exact absurd (active.symm.trans idle) (by decide)

def ReadsAll : List Item → (word rest : List TokenKind) → Prop
  | [], word, _ => word = []
  | .goal g :: items, word, rest =>
    ∃ first second, word = first ++ second ∧ g.Reads first (second ++ rest) ∧
      ReadsAll items second rest
  | .report _ :: _, _, _ => False
  | .enter _ :: items, word, rest | .leave :: items, word, rest
  | .endMark :: items, word, rest => ReadsAll items word rest

def Plan.Reads : Plan → (word rest : List TokenKind) → Prop
  | .expand items, word, rest => ReadsAll items word rest
  | .shift _ items, word, rest => ∃ k tail, word = k :: tail ∧ ReadsAll items tail rest

@[simp] theorem readsAll_nil : ReadsAll [] word rest ↔ word = [] := .rfl

@[simp] theorem readsAll_goal : ReadsAll (.goal g :: items) word rest ↔
    ∃ first second, word = first ++ second ∧ g.Reads first (second ++ rest) ∧
      ReadsAll items second rest := .rfl

@[simp] theorem readsAll_enter {rule : Rule} :
    ReadsAll (.enter rule :: items) word rest ↔ ReadsAll items word rest := .rfl

@[simp] theorem readsAll_leave :
    ReadsAll (.leave :: items) word rest ↔ ReadsAll items word rest := .rfl

@[simp] theorem readsAll_endMark :
    ReadsAll (.endMark :: items) word rest ↔ ReadsAll items word rest := .rfl

@[simp] theorem not_readsAll_report {p : Problem} : ¬ ReadsAll (.report p :: items) word rest :=
  id

@[simp high] theorem readsAll_one {p : Problem} (visible : k ≠ .eof) :
    ReadsAll (.goal (.one k p) :: items) word rest ↔
      ∃ tail, word = k :: tail ∧ ReadsAll items tail rest := by
  simp only [readsAll_goal, Goal.Reads, Goal.form, Goal.idle, Derives.tok_iff, Bool.and_eq_true,
    beq_iff_eq, visible, and_false, or_false]
  constructor
  · rintro ⟨_, tail, rfl, rfl, reads⟩
    exact ⟨tail, rfl, reads⟩
  · rintro ⟨tail, rfl, reads⟩
    exact ⟨[k], tail, rfl, rfl, reads⟩

@[simp] theorem readsAll_token (visible : k ≠ .eof) : ReadsAll (token k :: items) word rest ↔
    ∃ tail, word = k :: tail ∧ ReadsAll items tail rest :=
  readsAll_one visible

@[simp high] theorem readsAll_last : ReadsAll [.goal g] word rest ↔ g.Reads word rest := by
  simp only [readsAll_goal, readsAll_nil]
  constructor
  · rintro ⟨word, _, rfl, reads, rfl⟩
    simpa only [List.append_nil, List.nil_append] using reads
  · intro reads
    exact ⟨word, [], (List.append_nil word).symm, reads, rfl⟩

@[simp] theorem reads_expand : (Plan.expand items).Reads word rest ↔ ReadsAll items word rest :=
  .rfl

@[simp] theorem reads_shift {entered : List Rule} : (Plan.shift entered items).Reads word rest ↔
    ∃ k tail, word = k :: tail ∧ ReadsAll items tail rest := .rfl

theorem name_derives (named : atName k k₂ = true) : Derives (.ref .name) [k] := by
  simp only [atName, softKeywords, List.contains_iff_mem, Bool.or_eq_true, Bool.and_eq_true,
    beq_iff_eq] at named
  refine .ref (.any ?_)
  rcases named with rfl | ⟨member, _⟩
  · exact List.mem_cons_self
  · exact List.mem_cons_of_mem _ member

theorem function_derives (called : atCall k k₂ = true) : Derives (.ref .function) [k] := by
  simp only [atCall, Bool.and_eq_true, Bool.or_eq_true, beq_iff_eq] at called
  rcases called.1 with named | rfl
  · exact .ref (.choice (by simp) (name_derives named))
  · exact .ref (.choice (by simp) (Derives.tok_iff.mpr rfl))

/-- A name before a parenthesis, the argument if there is one, and the closing parenthesis. -/
theorem call_derives (called : atCall k k₂ = true)
    (inside : word = [] ∨ Derives (.ref .argument) word) :
    Derives (.ref .call) (k :: .lParen :: (word ++ [.rParen])) := by
  refine .ref (.andThen (function_derives called) (Derives.seq_singleton_iff.mpr ?_))
  exact .inParens (Derives.opt_iff.mpr inside)

def Goal.Planned (g : Goal) (word rest : List TokenKind) : Prop :=
  (plan g (peek (word ++ rest)) (peek ((word ++ rest).drop 1))).Reads word rest

theorem callTail_reads (called : atCall (peek (k :: tail ++ rest)) k₂ = true)
    (reads : ReadsAll (callTail items) tail rest) :
    ∃ call after, k :: tail = call ++ after ∧ Derives (.ref .call) call ∧
      ReadsAll items after rest := by
  simp only [callTail, ne_eq, reduceCtorEq, not_false_eq_true, readsAll_token,
    readsAll_goal] at reads
  obtain ⟨_, rfl, inside, _, rfl, argument, after, rfl, reads⟩ := reads
  refine ⟨k :: .lParen :: (inside ++ [.rParen]), after, by simp, ?_, reads⟩
  exact call_derives called (by simpa using argument)

theorem functionCall_reads (planned : Goal.functionCall.Planned word rest) :
    Goal.functionCall.Reads word rest := by
  simp only [Goal.Planned, plan] at planned
  split at planned
  · rename_i called
    obtain ⟨k, _, rfl, reads⟩ := planned
    obtain ⟨call, _, split, derives, rfl⟩ := callTail_reads called reads
    rw [split, List.append_nil]
    exact .inl derives
  · rename_i idle
    rw [reads_expand, readsAll_nil] at planned
    subst planned
    exact .inr ⟨rfl, by simpa using idle⟩

/-- A call that the next two tokens announce is not passed over. -/
theorem call_of_reads
    (called : atCall (peek (word ++ rest)) (peek ((word ++ rest).drop 1)) = true)
    (reads : Goal.functionCall.Reads word rest) : Derives (.ref .call) word := by
  rcases reads with derives | ⟨rfl, idle⟩
  · exact derives
  · rw [Goal.idle, Bool.not_eq_true'] at idle
    exact absurd (called.symm.trans idle) (by decide)

theorem argument_of_reads
    (called : atCall (peek (word ++ rest)) (peek ((word ++ rest).drop 1)) = true)
    (reads : Goal.functionCall.Reads word rest) : Derives (.ref .argument) word :=
  .ref (.choice (by simp) (call_of_reads called reads))

theorem groupItem_reads (planned : Goal.groupItem.Planned word rest) :
    Derives (.ref .argument) word := by
  simp only [Goal.Planned, plan] at planned
  split at planned
  · rename_i called
    exact argument_of_reads called (readsAll_last.mp planned)
  split at planned
  · exact .ref (.choice (by simp) (by simpa using planned : Derives (.ref .path) word))
  · exact planned.elim

theorem argument_reads (planned : Goal.argument.Planned word rest) :
    Derives (.opt (.ref .argument)) word := by
  simp only [Goal.Planned, plan] at planned
  split at planned
  · rename_i called
    exact .optSome (argument_of_reads called (readsAll_last.mp planned))
  split at planned
  · exact .optSome (.ref (.choice (by simp) (by simpa using planned : Derives (.ref .path) word)))
  · obtain rfl : word = [] := planned
    exact .optNone

theorem selectExpr_reads (planned : Goal.selectExpr.Planned word rest) :
    Derives (.ref .column) word := by
  simp only [Goal.Planned, plan, failed] at planned
  split at planned
  · rename_i opened
    obtain ⟨k, _, rfl, query, _, rfl, read, closed⟩ := planned
    obtain ⟨_, rfl, rfl⟩ := (readsAll_token (by decide)).mp closed
    obtain rfl : k = .lParen := by simpa using opened
    have enclosed : Derives (.ref (.query true)) query := by simpa using read
    exact .ref (.choice (by simp) enclosed.inParens)
  split at planned
  · rename_i called
    obtain ⟨k, _, rfl, reads⟩ := planned
    obtain ⟨call, label, split, derives, reads⟩ := callTail_reads called reads
    have named : Derives (.opt (tok .identifier)) label := by simpa using reads
    rw [split]
    exact .ref (.choice (by simp) (derives.pair named))
  split at planned
  · obtain ⟨path, label, rfl, derives, reads⟩ := planned
    have named : Derives (.opt (tok .identifier)) label := by simpa using reads
    have derives : Derives (.ref .path) path := by simpa using derives
    exact .ref (.choice (by simp) (derives.pair named))
  · exact planned.elim

theorem geolocation_reads (planned : Goal.geolocation.Planned word rest) :
    Derives (.ref .location) word := by
  simp only [Goal.Planned, plan] at planned
  split at planned
  · rename_i located
    obtain ⟨k, _, rfl, reads⟩ := planned
    obtain rfl : k = .GEOLOCATION := by simpa using located
    simp only [ne_eq, reduceCtorEq, not_false_eq_true, readsAll_token, readsAll_goal,
      readsAll_nil] at reads
    obtain ⟨_, rfl, latitude, _, rfl, first, _, rfl, longitude, _, rfl, second, _, rfl, rfl⟩ :=
      reads
    have inside : Derives (seq [.ref .number, tok .comma, .ref .number])
        (latitude ++ .comma :: longitude) :=
      .andThen (first.derives rfl) (.tokThen (Derives.seq_singleton_iff.mpr (second.derives rfl)))
    refine .ref (.tokThen (Derives.seq_singleton_iff.mpr ?_))
    simpa using inside.inParens
  · exact planned.elim

theorem whereExpr_reads (planned : Goal.whereExpr.Planned word rest) :
    Derives (seq [.ref .operand, .ref .comparison]) word := by
  simp only [Goal.Planned, plan, failed] at planned
  split at planned
  · rename_i distance
    obtain ⟨k, _, rfl, reads⟩ := planned
    obtain rfl : k = .DISTANCE := by simpa using distance
    simp only [ne_eq, reduceCtorEq, not_false_eq_true, readsAll_token, readsAll_goal,
      readsAll_leave, readsAll_nil] at reads
    obtain ⟨_, rfl, path, _, rfl, field, _, rfl, place, _, rfl, located, _, rfl, unit, _, rfl,
      metric, _, rfl, comparison, _, rfl, compared, rfl⟩ := reads
    obtain rfl : unit = [.string] := by simpa using metric
    have inside : Derives (seq [.ref .path, tok .comma, .ref .location, tok .comma, tok .string])
        (path ++ .comma :: (place ++ [.comma, .string])) :=
      .andThen (field.derives rfl) (.tokThen (.andThen (located.derives rfl)
        (.tokThen (Derives.seq_singleton_iff.mpr (Derives.tok_iff.mpr rfl)))))
    have operand : Derives (.ref .operand) _ :=
      .ref (.choice (by simp) (.ref (p := .distance) (.tokThen
        (Derives.seq_singleton_iff.mpr inside.inParens))))
    simpa using operand.pair (compared.derives rfl)
  split at planned
  · rename_i called
    obtain ⟨call, comparison, rfl, read, compared⟩ := planned
    rw [List.append_assoc] at called
    have operand : Derives (.ref .operand) call :=
      .ref (.choice (by simp) (call_of_reads called read))
    exact operand.pair ((readsAll_last.mp compared).derives rfl)
  split at planned
  · obtain ⟨path, comparison, rfl, field, compared⟩ := planned
    have operand : Derives (.ref .operand) path :=
      .ref (.choice (a := .ref .path) (by simp) (field.derives rfl))
    exact operand.pair ((readsAll_last.mp compared).derives rfl)
  · exact planned.elim



theorem comparison_reads (planned : Goal.comparison.Planned word rest) :
    Derives (.ref .comparison) word := by
  have valued (sign : List TokenKind) {tail} (signed : Derives (.ref .sign) sign)
      (reads : ReadsAll [Goal.literalValue] tail rest) :
      Derives (.ref .comparison) (sign ++ tail) :=
    .ref (.choice (by simp) (signed.pair ((readsAll_last.mp reads).derives rfl)))
  have listed (sign : List TokenKind) {tail} (signed : Derives (.ref .membership) sign)
      (reads : ReadsAll [Goal.inList] tail rest) : Derives (.ref .comparison) (sign ++ tail) :=
    .ref (.choice (by simp) (signed.pair ((readsAll_last.mp reads).derives rfl)))
  simp only [Goal.Planned, plan, comparisonPlan] at planned
  split at planned
  all_goals rename_i first
  · obtain ⟨k, tail, rfl, reads⟩ := planned
    obtain rfl : k = .eq := first
    exact valued [.eq] (.ref (by simp [Phrase.rule])) reads
  · obtain ⟨k, tail, rfl, reads⟩ := planned
    obtain rfl : k = .notEq := first
    exact valued [.notEq] (.ref (by simp [Phrase.rule])) reads
  · obtain ⟨k, _, rfl, more, tail, rfl, read, reads⟩ := planned
    obtain rfl : k = .lt := first
    exact valued (.lt :: more) (.ref (by simpa [Phrase.rule] using read)) reads
  · obtain ⟨k, _, rfl, more, tail, rfl, read, reads⟩ := planned
    obtain rfl : k = .gt := first
    exact valued (.gt :: more) (.ref (by simpa [Phrase.rule] using read)) reads
  · obtain ⟨k, tail, rfl, reads⟩ := planned
    obtain rfl : k = .LIKE := first
    have pattern : Derives (.any [.string, .bind]) tail := (readsAll_last.mp reads).derives rfl
    exact .ref (.choice (by simp) (.tokThen (Derives.seq_singleton_iff.mpr pattern)))
  · obtain ⟨k, tail, rfl, reads⟩ := planned
    obtain rfl : k = .IN := first
    exact listed [.IN] (.ref (by simp [Phrase.rule])) reads
  · obtain ⟨k, tail, rfl, reads⟩ := planned
    obtain rfl : k = .INCLUDES := first
    exact listed [.INCLUDES] (.ref (by simp [Phrase.rule])) reads
  · obtain ⟨k, tail, rfl, reads⟩ := planned
    obtain rfl : k = .EXCLUDES := first
    exact listed [.EXCLUDES] (.ref (by simp [Phrase.rule])) reads
  · split at planned
    · obtain ⟨k, _, rfl, reads⟩ := planned
      obtain rfl : k = .NOT := first
      obtain ⟨tail, rfl, inside⟩ := (readsAll_token (by decide)).mp reads
      exact listed [.NOT, .IN] (.ref (by simp [Phrase.rule])) inside
    · exact planned.elim
  · exact planned.elim

theorem literalValue_reads (planned : Goal.literalValue.Planned word rest) :
    Derives (.ref .value) word := by
  have single {k tail} (member : k ∈ [TokenKind.string, .integer, .decimal, .date, .dateTime,
      .TRUE, .FALSE, .NULL, .bind]) (reads : ReadsAll [.leave] tail rest) :
      Derives (.ref .value) (k :: tail) := by
    obtain rfl : tail = [] := reads
    exact .ref (.choice (by simp) (.any member))
  have signed {k tail} (member : k ∈ [TokenKind.plus, .minus])
      (reads : ReadsAll [Goal.number, .leave] tail rest) : Derives (.ref .value) (k :: tail) := by
    obtain ⟨number, _, rfl, read, rfl⟩ := reads
    rw [List.append_nil]
    have digits := Derives.seq_singleton_iff.mpr (read.derives rfl)
    exact .ref (.choice (by simp) (.anyThen member digits))
  simp only [Goal.Planned, plan, valuePlan] at planned
  split at planned
  all_goals rename_i first
  case h_12 =>
    obtain ⟨k, _, rfl, count, _, rfl, read, rfl⟩ := planned
    obtain rfl : k = .identifier := first
    rw [List.append_nil]
    exact .ref (.choice (by simp) (.tokThen (Derives.seq_singleton_iff.mpr (read.derives rfl))))
  case h_13 => exact planned.elim
  all_goals
    obtain ⟨k, tail, rfl, reads⟩ := planned
    obtain rfl : k = _ := first
  case h_10 | h_11 => exact signed (by simp) reads
  all_goals exact single (by simp) reads

theorem balanced_nil : Derives (.ref .balanced) [] := .ref .manyNil

theorem balanced_append {first second : List TokenKind} (left : Derives (.ref .balanced) first)
    (right : Derives (.ref .balanced) second) : Derives (.ref .balanced) (first ++ second) := by
  rw [Derives.ref_iff] at left right ⊢
  exact left.many_append right

theorem balanced_piece (member : k ∈ [TokenKind.identifier, .comma, .eq, .string]) :
    Derives (.ref .balanced) [k] := by
  refine .ref ?_
  rw [← List.append_nil [k]]
  exact .manyCons (.choice (by simp) (.any member)) .manyNil

theorem balanced_parens (inside : Derives (.ref .balanced) word) :
    Derives (.ref .balanced) (.lParen :: (word ++ [.rParen])) := by
  refine .ref ?_
  rw [← List.append_nil (_ :: _)]
  exact .manyCons (.choice (by simp) inside.inParens) .manyNil

theorem openFilter_nil : Derives (.ref (.filter false)) [] := .ref (balanced_nil.pair .optNone)

theorem openFilter_append (left : Derives (.ref .balanced) word)
    (right : Derives (.ref (.filter false)) tail) :
    Derives (.ref (.filter false)) (word ++ tail) := by
  obtain ⟨balanced, after, rfl, inside, more⟩ := Derives.andThen_iff.mp (Derives.ref_iff.mp right)
  rw [← List.append_assoc]
  exact .ref (.andThen (balanced_append left inside) more)

theorem openFilter_open (inside : Derives (.ref (.filter false)) word) :
    Derives (.ref (.filter false)) (.lParen :: word) := by
  have more : Derives (.opt (seq [tok .lParen, .ref (.filter false)])) (.lParen :: word) :=
    .optSome (.tokThen (Derives.seq_singleton_iff.mpr inside))
  exact .ref (balanced_nil.pair more)

theorem openFilter_of_balanced (derives : Derives (.ref .balanced) word) :
    Derives (.ref (.filter false)) word := by
  rw [← List.append_nil word]
  exact openFilter_append derives openFilter_nil

/-- Whatever a filter may end with, balanced words may come before it. -/
theorem filterFrom_append {enclosed : Bool} {depth : Nat} (left : Derives (.ref .balanced) word)
    (right : Derives (filterFrom enclosed depth) tail) :
    Derives (filterFrom enclosed depth) (word ++ tail) := by
  cases depth with
  | zero =>
    cases enclosed with
    | true => exact .ref (balanced_append left (Derives.ref_iff.mp right))
    | false => exact openFilter_append left right
  | succ depth =>
    rcases Derives.orElse_iff.mp right with closing | right
    · obtain ⟨balanced, after, rfl, inside, more⟩ := Derives.andThen_iff.mp closing
      rw [← List.append_assoc]
      exact .orElseLeft (.andThen (balanced_append left inside) more)
    · cases enclosed with
      | true => exact absurd right (by simp)
      | false => exact .orElseRight (openFilter_append left right)

theorem filterFrom_open {enclosed : Bool} {depth : Nat}
    (inside : Derives (filterFrom enclosed (depth + 1)) word) :
    Derives (filterFrom enclosed depth) (.lParen :: word) := by
  rcases Derives.orElse_iff.mp inside with closing | unclosed
  · obtain ⟨balanced, _, rfl, body, closing⟩ := Derives.seq_cons_iff.mp closing
    obtain ⟨after, rfl, more⟩ := Derives.seq_tok_cons_iff.mp closing
    simpa using filterFrom_append (balanced_parens body) (Derives.seq_singleton_iff.mp more)
  · cases enclosed with
    | true => exact absurd unclosed (by simp)
    | false =>
      cases depth with
      | zero => exact openFilter_open unclosed
      | succ depth => exact .orElseRight (openFilter_open unclosed)

theorem filterFrom_close {enclosed : Bool} {depth : Nat}
    (after : Derives (filterFrom enclosed depth) word) :
    Derives (filterFrom enclosed (depth + 1)) (.rParen :: word) :=
  .orElseLeft (.andThen balanced_nil (.tokThen (Derives.seq_singleton_iff.mpr after)))

theorem filterFrom_nil {enclosed : Bool} {depth : Nat} (final : enclosed = true → depth = 0) :
    Derives (filterFrom enclosed depth) [] := by
  cases depth with
  | zero =>
    cases enclosed with
    | true => exact .ref balanced_nil
    | false => exact openFilter_nil
  | succ depth =>
    cases enclosed with
    | true => exact absurd (final rfl) (Nat.succ_ne_zero depth)
    | false => exact .orElseRight openFilter_nil

theorem withBody_reads {depth : Nat} (planned : (Goal.withBody depth).Planned word rest) :
    Derives (filterFrom (peek rest == .rParen) depth) word := by
  have piece {k tail} (member : k ∈ [TokenKind.identifier, .comma, .eq, .string])
      (reads : ReadsAll [Goal.withBody depth] tail rest) :
      Derives (filterFrom (peek rest == .rParen) depth) (k :: tail) :=
    filterFrom_append (balanced_piece member) ((readsAll_last.mp reads).derives rfl)
  simp only [Goal.Planned, plan, withPlan] at planned
  split at planned
  all_goals rename_i first
  case h_5 =>
    obtain ⟨k, tail, rfl, reads⟩ := planned
    obtain rfl : k = .lParen := first
    exact filterFrom_open ((readsAll_last.mp reads).derives rfl)
  case h_6 =>
    split at planned
    · rename_i closed
      obtain rfl : word = [] := planned
      exact filterFrom_nil fun _ => closed
    · rename_i opened
      obtain ⟨k, tail, rfl, reads⟩ := planned
      obtain rfl : k = .rParen := first
      obtain ⟨depth, rfl⟩ := Nat.exists_eq_succ_of_ne_zero opened
      exact filterFrom_close ((readsAll_last.mp reads).derives rfl)
  case h_7 =>
    rename_i other
    obtain rfl : word = [] := planned
    exact filterFrom_nil fun closing => absurd (beq_iff_eq.mp closing) first
  all_goals
    obtain ⟨k, tail, rfl, reads⟩ := planned
    obtain rfl : k = _ := first
    exact piece (by simp) reads

theorem clause_open {enclosed : Bool} (derives : Derives (.ref (.clause enclosed)) word) :
    Derives (.ref (.clause false)) word := by
  cases enclosed with
  | false => exact derives
  | true =>
    rw [Derives.ref_iff] at derives ⊢
    simp only [Phrase.rule, Derives.alt_cons_iff] at derives ⊢
    rcases derives with derives | derives | derives | derives
    · exact .inl derives
    · exact .inr (.inl derives)
    · obtain ⟨after, rfl, filter⟩ := Derives.seq_tok_cons_iff.mp derives
      have closed := Derives.ref_iff.mp (Derives.seq_singleton_iff.mp filter)
      have filter := openFilter_of_balanced closed
      exact .inr (.inr (.inl (.tokThen (Derives.seq_singleton_iff.mpr filter))))
    · exact .inr (.inr (.inr derives))

/-- One clause more in front. Only a clause right before the closing parenthesis of an enclosed
query has to be enclosed itself. -/
theorem clauses_cons (clause : Derives (.ref (.clause (peek (tail ++ rest) == .rParen))) word)
    (more : Derives (clauses (peek rest == .rParen)) tail) :
    Derives (clauses (peek rest == .rParen)) (word ++ tail) := by
  cases enclosed : peek rest == .rParen with
  | false =>
    rw [enclosed] at more
    exact .manyCons (clause_open clause) more
  | true =>
    rw [enclosed] at more
    rcases Derives.opt_iff.mp more with rfl | more
    · rw [List.nil_append, enclosed] at clause
      rw [List.append_nil]
      exact .optSome (Derives.seq_cons_iff.mpr
        ⟨[], word, rfl, .manyNil, Derives.seq_singleton_iff.mpr clause⟩)
    · obtain ⟨clauses, last, rfl, middle, final⟩ := Derives.seq_cons_iff.mp more
      rw [← List.append_assoc]
      exact .optSome (.andThen (.manyCons (clause_open clause) middle) final)

theorem clauses_reads (planned : Goal.clauses.Planned word rest) :
    Derives (clauses (peek rest == .rParen)) word := by
  simp only [Goal.Planned, plan, clausePlan] at planned
  split at planned
  all_goals rename_i first
  case h_11 =>
    obtain rfl : word = [] := planned
    cases peek rest == .rParen with
    | false => exact .manyNil
    | true => exact .optNone
  all_goals
    obtain ⟨k, _, rfl, reads⟩ := planned
    obtain rfl : k = _ := first
    simp only [ne_eq, reduceCtorEq, not_false_eq_true, readsAll_token, readsAll_goal,
      readsAll_leave, readsAll_nil] at reads
  · obtain ⟨_, rfl, name, _, rfl, read, tail, _, rfl, more, rfl⟩ := reads
    have scope := Derives.seq_singleton_iff.mpr (read.derives rfl)
    simpa using clauses_cons (.ref (.choice (by simp) (.tokThen (.tokThen scope))))
      (more.derives rfl)
  · obtain ⟨_, _, rfl, read, tail, _, rfl, more, rfl⟩ := reads
    have conditions := Derives.seq_singleton_iff.mpr (read.derives rfl)
    have filter : TokenKind.WHERE ∈ [TokenKind.WHERE, .HAVING] := by simp
    simpa using clauses_cons (.ref (.choice (by simp) (.anyThen filter conditions)))
      (more.derives rfl)
  · obtain ⟨_, _, rfl, read, tail, _, rfl, more, rfl⟩ := reads
    have conditions := Derives.seq_singleton_iff.mpr (read.derives rfl)
    have filter : TokenKind.HAVING ∈ [TokenKind.WHERE, .HAVING] := by simp
    simpa using clauses_cons (.ref (.choice (by simp) (.anyThen filter conditions)))
      (more.derives rfl)
  · obtain ⟨filter, _, rfl, read, tail, _, rfl, more, rfl⟩ := reads
    rw [List.append_nil] at read
    have body : Derives (.ref (.filter (peek (tail ++ rest) == .rParen))) filter :=
      read.derives rfl
    have body := Derives.seq_singleton_iff.mpr body
    simpa using clauses_cons (.ref (.choice (by simp) (.tokThen body))) (more.derives rfl)
  · obtain ⟨_, rfl, group, _, rfl, read, tail, _, rfl, more, rfl⟩ := reads
    have grouping := Derives.seq_singleton_iff.mpr (read.derives rfl)
    simpa using clauses_cons (.ref (.choice (by simp) (.tokThen (.tokThen grouping))))
      (more.derives rfl)
  · obtain ⟨_, rfl, order, _, rfl, read, orders, _, rfl, reads, tail, _, rfl, more, rfl⟩ := reads
    have listed : Derives (listOf (.ref .order)) (order ++ orders) :=
      Derives.listOf_iff.mpr ⟨order, orders, rfl, read.derives rfl, reads.derives rfl⟩
    have ordering := Derives.seq_singleton_iff.mpr listed
    simpa using clauses_cons (.ref (.choice (by simp) (.tokThen (.tokThen ordering))))
      (more.derives rfl)
  · obtain ⟨count, _, rfl, read, tail, _, rfl, more, rfl⟩ := reads
    have rows := Derives.seq_singleton_iff.mpr (read.derives rfl)
    have limit : TokenKind.LIMIT ∈ [TokenKind.LIMIT, .OFFSET] := by simp
    simpa using clauses_cons (.ref (.choice (by simp) (.anyThen limit rows))) (more.derives rfl)
  · obtain ⟨count, _, rfl, read, tail, _, rfl, more, rfl⟩ := reads
    have rows := Derives.seq_singleton_iff.mpr (read.derives rfl)
    have offset : TokenKind.OFFSET ∈ [TokenKind.LIMIT, .OFFSET] := by simp
    simpa using clauses_cons (.ref (.choice (by simp) (.anyThen offset rows))) (more.derives rfl)
  · obtain ⟨purposes, _, rfl, read, tail, _, rfl, more, rfl⟩ := reads
    have listed := Derives.seq_singleton_iff.mpr (read.derives rfl)
    simpa using clauses_cons (.ref (.choice (by simp) (.tokThen listed))) (more.derives rfl)
  · obtain ⟨name, _, rfl, read, names, _, rfl, reads, tail, _, rfl, more, rfl⟩ := reads
    have listed : Derives (listOf (.ref .name)) (name ++ names) :=
      Derives.listOf_iff.mpr ⟨name, names, rfl, read.derives rfl, reads.derives rfl⟩
    have stats := Derives.seq_singleton_iff.mpr listed
    simpa using clauses_cons (.ref (.choice (by simp) (.tokThen stats))) (more.derives rfl)

theorem more_reads {a : Pattern} {items : List Item}
    (planned : Plan.Reads
      (if peek (word ++ rest) == .comma then .shift [] items else .expand []) word rest)
    (split : ∀ tail, ReadsAll items tail rest →
      ∃ first after, tail = first ++ after ∧ Derives a first ∧ Derives (more a) after) :
    Derives (more a) word := by
  split at planned
  · rename_i comma
    obtain ⟨k, tail, rfl, reads⟩ := planned
    obtain rfl : k = .comma := by simpa using comma
    obtain ⟨first, after, rfl, head, more⟩ := split tail reads
    exact Derives.more_iff.mpr (.inr ⟨first, after, rfl, head, more⟩)
  · exact Derives.more_iff.mpr (.inl planned)

theorem trailing_reads (planned : Goal.trailing.Planned word rest) :
    Goal.trailing.Reads word rest := by
  simp only [Goal.Planned, plan] at planned
  split at planned
  · exact .inl (Derives.empty_iff.mpr planned)
  · exact planned.elim

theorem skipRest_reads (planned : Goal.skipRest.Planned word rest) :
    Goal.skipRest.Reads word rest := by
  simp only [Goal.Planned, plan] at planned
  split at planned
  · obtain rfl : word = [] := planned
    exact .inl .manyNil
  · obtain ⟨k, tail, rfl, reads⟩ := planned
    have every : k ∈ TokenKind.all := by cases k <;> decide
    exact .inl (.manyCons (.any every) ((readsAll_last.mp reads).derives rfl))

theorem innerQuery_reads (planned : Goal.innerQuery.Planned word rest) :
    Goal.innerQuery.Reads word rest := by
  have reads : ReadsAll (token .SELECT :: [Goal.selectExprs, Goal.fromPart, Goal.clauses, .leave])
    word rest := planned
  obtain ⟨_, rfl, columns, _, rfl, select, _, clauses, rfl, part, more⟩ :=
    (readsAll_token (by decide)).mp reads
  obtain ⟨objects, rfl, listed⟩ := Derives.seq_tok_cons_iff.mp (part.derives rfl)
  refine .inl (.ref (.tokThen (.andThen (select.derives rfl) (.tokThen (.andThen
    (Derives.seq_singleton_iff.mp listed) ?_)))))
  exact Derives.seq_singleton_iff.mpr ((readsAll_last.mp more).derives rfl)

theorem subquery_reads (planned : Goal.subquery.Planned word rest) :
    Goal.subquery.Reads word rest := by
  simp only [Goal.Planned, plan] at planned
  split at planned
  · exact .inl ((readsAll_last.mp planned).derives rfl)
  · exact planned.elim

theorem selectExprs_reads (planned : Goal.selectExprs.Planned word rest) :
    Goal.selectExprs.Reads word rest := by
  simp only [Goal.Planned, plan, failed] at planned
  split at planned
  · obtain ⟨first, after, rfl, head, more⟩ := planned
    have more := (readsAll_last.mp more).derives rfl
    exact .inl (Derives.listOf_iff.mpr ⟨first, after, rfl, head.derives rfl, more⟩)
  · exact planned.elim

theorem fromExprs_reads (planned : Goal.fromExprs.Planned word rest) :
    Goal.fromExprs.Reads word rest := by
  simp only [Goal.Planned, plan, failed] at planned
  split at planned
  · obtain ⟨first, after, rfl, head, more⟩ := planned
    have more := (readsAll_last.mp more).derives rfl
    exact .inl (Derives.listOf_iff.mpr ⟨first, after, rfl, head.derives rfl, more⟩)
  · exact planned.elim

theorem alias_reads (planned : Goal.alias.Planned word rest) : Goal.alias.Reads word rest := by
  simp only [Goal.Planned, plan] at planned
  split at planned
  · rename_i first
    have named : Derives (.ref .name) word := (readsAll_last.mp planned).derives rfl
    obtain ⟨k, _, rfl⟩ := Derives.any_iff.mp (Derives.ref_iff.mp named)
    obtain rfl : k = .identifier := by simpa using first
    exact .inl (.optSome (Derives.tok_iff.mpr rfl))
  · obtain rfl : word = [] := planned
    exact .inl .optNone

theorem dotted_reads (planned : Goal.dotted.Planned word rest) : Goal.dotted.Reads word rest := by
  simp only [Goal.Planned, plan] at planned
  split at planned
  · rename_i first
    obtain ⟨k, _, rfl, reads⟩ := planned
    obtain rfl : k = .dot := by simpa using first
    have path : Derives (.ref .path) _ := (readsAll_last.mp reads).derives rfl
    obtain ⟨name, names, rfl, head, more⟩ := Derives.seq_cons_iff.mp (Derives.ref_iff.mp path)
    exact .inl (.manyCons (.tokThen (Derives.seq_singleton_iff.mpr head))
      (Derives.seq_singleton_iff.mp more))
  · obtain rfl : word = [] := planned
    exact .inl .manyNil

theorem afterDot_reads (planned : Goal.afterDot.Planned word rest) :
    Goal.afterDot.Reads word rest := by
  simp only [Goal.Planned, plan] at planned
  split at planned
  · obtain ⟨first, after, rfl, head, more⟩ := planned
    exact .inl (.ref (.pair (head.derives rfl) ((readsAll_last.mp more).derives rfl)))
  · exact planned.elim

theorem identifier_reads (planned : Goal.identifier.Planned word rest) :
    Goal.identifier.Reads word rest := by
  simp only [Goal.Planned, plan, failed] at planned
  split at planned
  · rename_i named
    obtain ⟨k, _, rfl, rfl⟩ := planned
    exact .inl (name_derives named)
  · exact planned.elim

theorem fromPart_reads (planned : Goal.fromPart.Planned word rest) :
    Goal.fromPart.Reads word rest := by
  simp only [Goal.Planned, plan] at planned
  split at planned
  · rename_i first
    obtain ⟨k, tail, rfl, reads⟩ := planned
    obtain rfl : k = .FROM := by simpa using first
    exact .inl (.tokThen (Derives.seq_singleton_iff.mpr ((readsAll_last.mp reads).derives rfl)))
  · exact planned.elim

theorem moreConditions_reads (planned : Goal.moreConditions.Planned word rest) :
    Goal.moreConditions.Reads word rest := by
  simp only [Goal.Planned, plan] at planned
  split at planned
  · rename_i first
    obtain ⟨k, _, rfl, condition, tail, rfl, read, more⟩ := planned
    have member : k ∈ [TokenKind.AND, .OR] := by simpa using first
    exact .inl (.manyCons (.anyThen member (Derives.seq_singleton_iff.mpr (read.derives rfl)))
      ((readsAll_last.mp more).derives rfl))
  · obtain rfl : word = [] := planned
    exact .inl .manyNil

theorem condition_reads (planned : Goal.condition.Planned word rest) :
    Goal.condition.Reads word rest := by
  simp only [Goal.Planned, plan] at planned
  split at planned
  · rename_i first
    obtain ⟨k, tail, rfl, reads⟩ := planned
    obtain rfl : k = .NOT := by simpa using first
    have negated := Derives.seq_singleton_iff.mpr ((readsAll_last.mp reads).derives rfl)
    exact .inl (.ref (.choice (by simp) (.tokThen negated)))
  split at planned
  · rename_i first
    obtain ⟨k, _, rfl, inside, _, rfl, read, closed⟩ := planned
    obtain rfl : k = .lParen := by simpa using first
    obtain ⟨_, rfl, rfl⟩ := (readsAll_token (by decide)).mp closed
    exact .inl (.ref (.choice (by simp) (read.derives rfl).inParens))
  · exact .inl (.ref (.choice (by simp) ((readsAll_last.mp planned).derives rfl)))

theorem rangeCount_reads (planned : Goal.rangeCount.Planned word rest) :
    Goal.rangeCount.Reads word rest := by
  simp only [Goal.Planned, plan] at planned
  split at planned
  · rename_i first
    obtain ⟨k, _, rfl, reads⟩ := planned
    obtain rfl : k = .colon := by simpa using first
    obtain ⟨_, rfl, rfl⟩ := (readsAll_one (by decide)).mp reads
    exact .inl (.optSome (.tokThen (Derives.seq_singleton_iff.mpr (Derives.tok_iff.mpr rfl))))
  · obtain rfl : word = [] := planned
    exact .inl .optNone

theorem inList_reads (planned : Goal.inList.Planned word rest) : Goal.inList.Reads word rest := by
  simp only [Goal.Planned, plan, failed] at planned
  split at planned
  · rename_i first
    obtain ⟨k, _, rfl, inside, _, rfl, read, closed⟩ := planned
    obtain rfl : k = .lParen := by simpa using first
    obtain ⟨_, rfl, rfl⟩ := (readsAll_token (by decide)).mp closed
    exact .inl (read.derives rfl).inParens
  · exact planned.elim

theorem inBody_reads (planned : Goal.inBody.Planned word rest) : Goal.inBody.Reads word rest := by
  simp only [Goal.Planned, plan] at planned
  split at planned
  · rename_i first
    obtain ⟨k, _, rfl, field, _, rfl, path, _, filter, rfl, part, more⟩ := planned
    obtain rfl : k = .SELECT := by simpa using first
    obtain ⟨objects, rfl, listed⟩ := Derives.seq_tok_cons_iff.mp (part.derives rfl)
    have filtered := Derives.seq_singleton_iff.mpr ((readsAll_last.mp more).derives rfl)
    have semiJoin : Derives (.ref .semiJoin) _ := .ref (.tokThen (.andThen (path.derives rfl)
      (.tokThen (.andThen (Derives.seq_singleton_iff.mp listed) filtered))))
    exact .inl (.ref (.choice (by simp) semiJoin))
  · obtain ⟨value, values, rfl, read, more⟩ := planned
    have listed : Derives (listOf (.ref .value)) (value ++ values) := Derives.listOf_iff.mpr
      ⟨value, values, rfl, read.derives rfl, (readsAll_last.mp more).derives rfl⟩
    exact .inl (.ref (.choice (by simp) listed))

theorem semiField_reads (planned : Goal.semiField.Planned word rest) :
    Goal.semiField.Reads word rest := by
  simp only [Goal.Planned, plan] at planned
  split at planned
  · exact .inl ((readsAll_last.mp planned).derives rfl)
  · exact planned.elim

theorem semiWhere_reads (planned : Goal.semiWhere.Planned word rest) :
    Goal.semiWhere.Reads word rest := by
  simp only [Goal.Planned, plan] at planned
  split at planned
  · rename_i first
    obtain ⟨k, _, rfl, reads⟩ := planned
    obtain rfl : k = .WHERE := by simpa using first
    have conditions := Derives.seq_singleton_iff.mpr ((readsAll_last.mp reads).derives rfl)
    exact .inl (.optSome (.tokThen conditions))
  · obtain rfl : word = [] := planned
    exact .inl .optNone

theorem grouping_reads (planned : Goal.grouping.Planned word rest) :
    Goal.grouping.Reads word rest := by
  simp only [Goal.Planned, plan] at planned
  split at planned
  · rename_i first
    obtain ⟨k, _, rfl, reads⟩ := planned
    obtain ⟨_, rfl, inside, _, rfl, read, closed⟩ := (readsAll_token (by decide)).mp reads
    obtain ⟨_, rfl, rfl⟩ := (readsAll_token (by decide)).mp closed
    have member : k ∈ [TokenKind.ROLLUP, .CUBE] := by simpa using first
    have listed := Derives.seq_singleton_iff.mpr (read.derives rfl).inParens
    exact .inl (.ref (.choice (by simp) (.anyThen member listed)))
  · exact .inl (.ref (.choice (by simp) ((readsAll_last.mp planned).derives rfl)))

theorem nulls_reads (planned : Goal.nulls.Planned word rest) : Goal.nulls.Reads word rest := by
  simp only [Goal.Planned, plan] at planned
  split at planned
  · rename_i first
    obtain ⟨k, _, rfl, reads⟩ := planned
    obtain rfl : k = .NULLS := by simpa using first
    have order := Derives.seq_singleton_iff.mpr ((readsAll_last.mp reads).derives rfl)
    exact .inl (.optSome (.tokThen order))
  · obtain rfl : word = [] := planned
    exact .inl .optNone

theorem purposes_reads (planned : Goal.purposes.Planned word rest) :
    Goal.purposes.Reads word rest := by
  simp only [Goal.Planned, plan] at planned
  split at planned
  · rename_i first
    obtain ⟨k, tail, rfl, reads⟩ := planned
    have member : k ∈ [TokenKind.VIEW, .REFERENCE, .UPDATE] := by
      simpa [or_assoc] using first
    have more := (readsAll_last.mp reads).derives rfl
    exact .inl (Derives.listOf_iff.mpr ⟨[k], tail, rfl, .ref (.any member), more⟩)
  · exact planned.elim

/-- Every plan is a production: what a goal becomes reads only words of the goal. -/
theorem reads_of_planned (planned : g.Planned word rest) : g.Reads word rest := by
  cases g with
  | clauses => exact .inl (clauses_reads planned)
  | withBody depth => exact .inl (withBody_reads planned)
  | comparison => exact .inl (comparison_reads planned)
  | literalValue => exact .inl (literalValue_reads planned)
  | whereExpr => exact .inl (whereExpr_reads planned)
  | geolocation => exact .inl (geolocation_reads planned)
  | selectExpr => exact .inl (selectExpr_reads planned)
  | functionCall => exact functionCall_reads planned
  | argument => exact .inl (argument_reads planned)
  | groupItem => exact .inl (groupItem_reads planned)
  | moreColumns | moreObjects | moreValues | moreGroups | moreOrders | moreStats =>
    refine .inl (more_reads planned fun tail reads => ?_)
    obtain ⟨first, after, rfl, head, more⟩ := reads
    exact ⟨first, after, rfl, head.derives rfl, (readsAll_last.mp more).derives rfl⟩
  | morePurposes =>
    refine .inl (more_reads planned fun tail reads => ?_)
    exact Derives.listOf_iff.mp ((readsAll_last.mp reads).derives rfl)
  | query =>
    obtain ⟨query, _, rfl, read, trailing, _, rfl, stops, rfl⟩ := planned
    obtain rfl := Derives.empty_iff.mp (stops.derives rfl)
    simpa using read
  | trailing => exact trailing_reads planned
  | skipRest => exact skipRest_reads planned
  | innerQuery => exact innerQuery_reads planned
  | subquery => exact subquery_reads planned
  | selectExprs => exact selectExprs_reads planned
  | fromExprs => exact fromExprs_reads planned
  | groupByExprs =>
    obtain ⟨first, after, rfl, head, more⟩ := planned
    have more := (readsAll_last.mp more).derives rfl
    exact .inl (Derives.listOf_iff.mpr ⟨first, after, rfl, head.derives rfl, more⟩)
  | whereExprs | field =>
    obtain ⟨first, after, rfl, head, more⟩ := planned
    exact .inl (.ref (.pair (head.derives rfl) ((readsAll_last.mp more).derives rfl)))
  | fromExpr =>
    obtain ⟨path, label, rfl, field, more⟩ := planned
    exact .inl (.ref (.pair (field.derives rfl) ((readsAll_last.mp more).derives rfl)))
  | signedNumber =>
    obtain ⟨sign, number, rfl, signed, more⟩ := planned
    exact .inl (.ref (.pair (signed.derives rfl) ((readsAll_last.mp more).derives rfl)))
  | orderByExpr =>
    obtain ⟨item, _, rfl, read, way, nulls, rfl, directed, more⟩ := planned
    refine .inl (.ref (.andThen (read.derives rfl) (.pair (directed.derives rfl) ?_)))
    exact (readsAll_last.mp more).derives rfl
  | «alias» => exact alias_reads planned
  | dotted => exact dotted_reads planned
  | afterDot => exact afterDot_reads planned
  | identifier => exact identifier_reads planned
  | fromPart => exact fromPart_reads planned
  | moreConditions => exact moreConditions_reads planned
  | condition => exact condition_reads planned
  | rangeCount => exact rangeCount_reads planned
  | number | likeLiteral | nullsOrder | rowCount =>
    simp only [Goal.Planned, plan, failed] at planned
    split at planned
    · rename_i first
      obtain ⟨k, _, rfl, rfl⟩ := planned
      exact .inl (.any (by simpa using first))
    · exact planned.elim
  | inList => exact inList_reads planned
  | inBody => exact inBody_reads planned
  | semiField => exact semiField_reads planned
  | semiWhere => exact semiWhere_reads planned
  | grouping => exact grouping_reads planned
  | nulls => exact nulls_reads planned
  | purposes => exact purposes_reads planned
  | one k p =>
    simp only [Goal.Planned, plan] at planned
    split at planned
    · rename_i first
      obtain ⟨_, _, rfl, rfl⟩ := planned
      exact .inl (Derives.tok_iff.mpr (by simpa using first))
    · exact planned.elim
  | maybe ks =>
    simp only [Goal.Planned, plan] at planned
    split at planned
    · rename_i first
      obtain ⟨_, _, rfl, rfl⟩ := planned
      exact .inl (.optSome (.any (by simpa using first)))
    · obtain rfl : word = [] := planned
      exact .inl .optNone

theorem readsAll_append {more : List Item} (reads : ReadsAll (items ++ more) word rest) :
    ∃ first second, word = first ++ second ∧ ReadsAll items first (second ++ rest) ∧
      ReadsAll more second rest := by
  induction items generalizing word with
  | nil => exact ⟨[], word, rfl, rfl, reads⟩
  | cons x items ih =>
    cases x with
    | goal g =>
      obtain ⟨head, _, rfl, read, reads⟩ := reads
      obtain ⟨first, second, rfl, left, right⟩ := ih reads
      rw [List.append_assoc] at read
      exact ⟨head ++ first, second, (List.append_assoc ..).symm, ⟨head, first, rfl, read, left⟩,
        right⟩
    | report p => exact reads.elim
    | enter rule => exact ih reads
    | leave => exact ih reads
    | endMark => exact ih reads

theorem reads_of_shift_nil {entered : List Rule}
    (planned : plan g .eof .eof = .shift entered items) : g.Reads [] [] := by
  cases g with
  | one k p =>
    simp only [plan] at planned
    split at planned
    · rename_i same
      obtain rfl := beq_iff_eq.mp same
      exact .inr ⟨rfl, rfl⟩
    · contradiction
  | maybe ks => exact .inl .optNone
  | withBody depth => simp [plan, withPlan] at planned
  | _ => cases planned

/-- A run without problems splits at every instruction into the words read so far and the rest. -/
theorem clean_reads (rest : List TokenKind) (items : List Item)
    (clean : Clean (run rest (items ++ stack))) :
    ∃ word after, rest = word ++ after ∧ ReadsAll items word after ∧ Clean (run after stack) := by
  match items with
  | [] => exact ⟨[], rest, rfl, rfl, clean⟩
  | .enter rule :: items =>
    rw [List.cons_append, run_enter, clean_enter] at clean
    exact clean_reads rest items clean
  | .leave :: items =>
    rw [List.cons_append, run_leave, clean_leave] at clean
    exact clean_reads rest items clean
  | .endMark :: items =>
    rw [List.cons_append, run_endMark, clean_endMark] at clean
    exact clean_reads rest items clean
  | .report p :: items =>
    rw [List.cons_append, run_report] at clean
    exact absurd clean not_clean_problem
  | .goal g :: items =>
    cases planned : plan g (peek rest) (peek (rest.drop 1)) with
    | expand first =>
      rw [List.cons_append, clean_expand planned, ← List.append_assoc] at clean
      obtain ⟨_, after, rfl, reads, final⟩ := clean_reads rest (first ++ items) clean
      obtain ⟨word, tail, rfl, reads, more⟩ := readsAll_append reads
      rw [List.append_assoc] at planned
      have read : g.Planned word (tail ++ after) := by rwa [Goal.Planned, planned]
      exact ⟨word ++ tail, after, rfl, ⟨word, tail, rfl, reads_of_planned read, more⟩, final⟩
    | shift entered first =>
      match rest with
      | [] =>
        rw [List.cons_append, run_shift_nil planned] at clean
        obtain ⟨word, after, split, reads, final⟩ := clean_reads [] items clean
        obtain ⟨rfl, rfl⟩ := List.append_eq_nil_iff.mp split.symm
        exact ⟨[], [], rfl, ⟨[], [], rfl, reads_of_shift_nil planned, reads⟩, final⟩
      | k :: rest =>
        have planned : plan g k (peek rest) = .shift entered first := planned
        rw [List.cons_append, clean_shift planned, ← List.append_assoc] at clean
        obtain ⟨_, after, rfl, reads, final⟩ := clean_reads rest (first ++ items) clean
        obtain ⟨word, tail, rfl, reads, more⟩ := readsAll_append reads
        rw [List.append_assoc] at planned
        have read : g.Planned (k :: word) (tail ++ after) := by
          simpa only [Goal.Planned, List.cons_append, peek_cons, List.drop_one, List.tail_cons,
            planned] using ⟨k, word, rfl, reads⟩
        exact ⟨k :: word ++ tail, after, rfl,
          ⟨k :: word, tail, rfl, reads_of_planned read, more⟩, final⟩
termination_by shiftRank * rest.length + rankOf items
decreasing_by
  · exact Nat.add_lt_add_left (rankOf_lt_cons _ _) _
  · exact Nat.add_lt_add_left (rankOf_lt_cons _ _) _
  · exact Nat.add_lt_add_left (rankOf_lt_cons _ _) _
  · exact Nat.add_lt_add_left (rankOf_expand_append_lt planned) _
  · exact Nat.add_lt_add_left (rankOf_lt_cons _ _) _
  · rw [List.length_cons, Nat.mul_succ, Nat.add_assoc]
    exact Nat.add_lt_add_left (rankOf_shift_append_lt planned) _

/-- Soundness: a query that is read without a problem is a word of the language. -/
theorem derives_of_clean {kinds : List TokenKind} (unmarked : .eof ∉ kinds)
    (clean : Clean (events kinds)) : Derives (.ref (.query false)) kinds := by
  rw [events, clean_expand rfl] at clean
  obtain ⟨word, after, rfl, reads, clean⟩ :=
    clean_reads kinds [.enter .query, .goal .innerQuery] clean
  cases after with
  | nil =>
    rw [List.append_nil]
    exact (readsAll_last.mp reads).derives rfl
  | cons k after =>
    have stops : plan .trailing k (peek after) = .expand [.report .trailing, Goal.skipRest] := by
      have visible : k ≠ .eof := fun same => unmarked (by simp [same])
      simp [plan, visible]
    have clean : Clean (run (k :: after) (.goal .trailing :: [.endMark, .leave])) := clean
    rw [clean_expand stops, List.cons_append, run_report] at clean
    exact absurd clean not_clean_problem

end SoqlAssist.Grammar
