import SoqlAssist.Token.Kind

/-!
The query language in extended Backus-Naur form, over kinds of tokens and apart from any reader.
A filter after `WITH` may leave parentheses open, except where a closing parenthesis comes right
after it: that one would belong to the filter. So a query in parentheses differs from a query on its
own in the filter that may end it, and phrases that can end a query say whether they are enclosed.
-/
namespace SoqlAssist.Grammar

inductive Phrase where
  | query (enclosed : Bool)
  | column | object
  /-- A name, or a path of names with dots between. -/
  | name | path
  | function | call | argument
  | clause (enclosed : Bool)
  /-- The words of a filter after `WITH`; an enclosed filter closes its parentheses. -/
  | filter (enclosed : Bool)
  | balanced
  | conditions | condition | operand | distance | location | comparison
  /-- The operators before a value and those before a list. -/
  | sign | membership
  | operands | semiJoin
  | value | number
  | group | order | purpose
  deriving DecidableEq, Repr

/-- What a word can look like. -/
inductive Pattern where
  | empty
  /-- One token of one of these kinds. -/
  | any (ks : List TokenKind)
  | ref (p : Phrase)
  | andThen (a b : Pattern)
  | orElse (a b : Pattern)
  | opt (a : Pattern)
  | many (a : Pattern)
  deriving DecidableEq, Repr

namespace Pattern

def tok (k : TokenKind) : Pattern := .any [k]

def seq (es : List Pattern) : Pattern := es.foldr .andThen .empty

def alt (es : List Pattern) : Pattern := es.foldr .orElse (.any [])

def more (a : Pattern) : Pattern := .many (seq [tok .comma, a])

def listOf (a : Pattern) : Pattern := seq [a, more a]

def parens (a : Pattern) : Pattern := seq [tok .lParen, a, tok .rParen]

/-- The clauses of a query. Of an enclosed query the last one ends where its parenthesis closes. -/
def clauses : (enclosed : Bool) → Pattern
  | false => .many (.ref (.clause false))
  | true => .opt (seq [.many (.ref (.clause false)), .ref (.clause true)])

end Pattern

open Pattern

def Phrase.rule : Phrase → Pattern
  | .query enclosed =>
    seq [tok .SELECT, listOf (.ref .column), tok .FROM, listOf (.ref .object), clauses enclosed]
  | .column =>
    alt [parens (.ref (.query true)),
      seq [.ref .call, .opt (tok .identifier)],
      seq [.ref .path, .opt (tok .identifier)]]
  | .object => seq [.ref .path, .opt (tok .identifier)]
  | .name => .any [.identifier, .GROUP, .ORDER, .SCOPE, .VIEW, .REFERENCE]
  | .path => seq [.ref .name, .many (seq [tok .dot, .ref .name])]
  | .function => alt [.ref .name, tok .COUNT]
  | .call => seq [.ref .function, parens (.opt (.ref .argument))]
  | .argument => alt [.ref .call, .ref .path]
  | .clause enclosed =>
    alt [seq [tok .USING, tok .SCOPE, .ref .name],
      seq [.any [.WHERE, .HAVING], .ref .conditions],
      seq [tok .WITH, .ref (.filter enclosed)],
      seq [tok .GROUP, tok .BY, .ref .group],
      seq [tok .ORDER, tok .BY, listOf (.ref .order)],
      seq [.any [.LIMIT, .OFFSET], .any [.integer, .bind]],
      seq [tok .FOR, listOf (.ref .purpose)],
      seq [tok .UPDATE, listOf (.ref .name)]]
  | .filter true => .ref .balanced
  | .filter false => seq [.ref .balanced, .opt (seq [tok .lParen, .ref (.filter false)])]
  | .balanced =>
    .many (alt [.any [.identifier, .comma, .eq, .string], parens (.ref .balanced)])
  | .conditions =>
    seq [.ref .condition, .many (seq [.any [.AND, .OR], .ref .condition])]
  | .condition =>
    alt [seq [tok .NOT, .ref .condition],
      parens (.ref .conditions),
      seq [.ref .operand, .ref .comparison]]
  | .operand => alt [.ref .distance, .ref .call, .ref .path]
  | .distance =>
    seq [tok .DISTANCE,
      parens (seq [.ref .path, tok .comma, .ref .location, tok .comma, tok .string])]
  | .location =>
    seq [tok .GEOLOCATION, parens (seq [.ref .number, tok .comma, .ref .number])]
  | .comparison =>
    alt [seq [.ref .sign, .ref .value],
      seq [tok .LIKE, .any [.string, .bind]],
      seq [.ref .membership, parens (.ref .operands)]]
  | .sign =>
    alt [.any [.eq, .notEq], seq [tok .lt, .opt (.any [.eq, .gt])], seq [tok .gt, .opt (tok .eq)]]
  | .membership => alt [.any [.IN, .INCLUDES, .EXCLUDES], seq [tok .NOT, tok .IN]]
  | .operands => alt [.ref .semiJoin, listOf (.ref .value)]
  | .semiJoin =>
    seq [tok .SELECT, .ref .path, tok .FROM, listOf (.ref .object),
      .opt (seq [tok .WHERE, .ref .conditions])]
  | .value =>
    alt [.any [.string, .integer, .decimal, .date, .dateTime, .TRUE, .FALSE, .NULL, .bind],
      seq [.any [.plus, .minus], .any [.integer, .decimal]],
      seq [tok .identifier, .opt (seq [tok .colon, tok .integer])]]
  | .number => seq [.opt (tok .minus), .any [.integer, .decimal]]
  | .group =>
    alt [seq [.any [.ROLLUP, .CUBE], parens (listOf (.ref .argument))],
      listOf (.ref .argument)]
  | .order =>
    seq [.ref .argument, .opt (.any [.ASC, .DESC]),
      .opt (seq [tok .NULLS, .any [.FIRST, .LAST]])]
  | .purpose => .any [.VIEW, .REFERENCE, .UPDATE]

/-- The words of a pattern. -/
inductive Derives : Pattern → List TokenKind → Prop where
  | empty : Derives .empty []
  | any {ks k} (member : k ∈ ks) : Derives (.any ks) [k]
  | ref {p word} (body : Derives p.rule word) : Derives (.ref p) word
  | andThen {a b first second} (left : Derives a first) (right : Derives b second) :
      Derives (.andThen a b) (first ++ second)
  | orElseLeft {a b word} (body : Derives a word) : Derives (.orElse a b) word
  | orElseRight {a b word} (body : Derives b word) : Derives (.orElse a b) word
  | optNone {a} : Derives (.opt a) []
  | optSome {a word} (body : Derives a word) : Derives (.opt a) word
  | manyNil {a} : Derives (.many a) []
  | manyCons {a first rest} (head : Derives a first) (tail : Derives (.many a) rest) :
      Derives (.many a) (first ++ rest)

namespace Derives

variable {a b : Pattern} {es fs : List Pattern} {p : Phrase} {k : TokenKind}
  {ks word : List TokenKind}

@[simp] theorem empty_iff : Derives .empty word ↔ word = [] := by
  constructor
  · intro derives
    cases derives
    rfl
  · rintro rfl
    exact .empty

@[simp] theorem any_iff : Derives (.any ks) word ↔ ∃ k ∈ ks, word = [k] := by
  constructor
  · intro derives
    cases derives with
    | any member => exact ⟨_, member, rfl⟩
  · rintro ⟨k, member, rfl⟩
    exact .any member

@[simp] theorem tok_iff : Derives (tok k) word ↔ word = [k] := by
  simp only [tok, any_iff, List.mem_singleton, exists_eq_left]

theorem ref_iff : Derives (.ref p) word ↔ Derives p.rule word :=
  ⟨fun derives => by cases derives with | ref body => exact body, .ref⟩

@[simp] theorem andThen_iff : Derives (.andThen a b) word ↔
    ∃ first second, word = first ++ second ∧ Derives a first ∧ Derives b second := by
  constructor
  · intro derives
    cases derives with
    | andThen left right => exact ⟨_, _, rfl, left, right⟩
  · rintro ⟨first, second, rfl, left, right⟩
    exact .andThen left right

@[simp] theorem orElse_iff : Derives (.orElse a b) word ↔ Derives a word ∨ Derives b word := by
  constructor
  · intro derives
    cases derives with
    | orElseLeft body => exact .inl body
    | orElseRight body => exact .inr body
  · rintro (body | body)
    · exact .orElseLeft body
    · exact .orElseRight body

@[simp] theorem opt_iff : Derives (.opt a) word ↔ word = [] ∨ Derives a word := by
  constructor
  · intro derives
    cases derives with
    | optNone => exact .inl rfl
    | optSome body => exact .inr body
  · rintro (rfl | body)
    · exact .optNone
    · exact .optSome body

@[simp] theorem seq_nil_iff : Derives (seq []) word ↔ word = [] := empty_iff

@[simp] theorem seq_cons_iff : Derives (seq (a :: es)) word ↔
    ∃ first second, word = first ++ second ∧ Derives a first ∧ Derives (seq es) second :=
  andThen_iff

theorem seq_append_iff : Derives (seq (es ++ fs)) word ↔
    ∃ first second, word = first ++ second ∧ Derives (seq es) first ∧ Derives (seq fs) second := by
  induction es generalizing word with
  | nil =>
    simp only [List.nil_append, seq_nil_iff]
    constructor
    · exact fun derives => ⟨[], word, rfl, rfl, derives⟩
    · rintro ⟨_, second, rfl, rfl, derives⟩
      exact derives
  | cons e es ih =>
    simp only [List.cons_append, seq_cons_iff, ih]
    constructor
    · rintro ⟨first, _, rfl, head, second, third, rfl, middle, tail⟩
      exact ⟨first ++ second, third, by simp, ⟨first, second, rfl, head, middle⟩, tail⟩
    · rintro ⟨_, third, rfl, ⟨first, second, rfl, head, middle⟩, tail⟩
      exact ⟨first, second ++ third, by simp, head, second, third, rfl, middle, tail⟩

@[simp high] theorem seq_singleton_iff : Derives (seq [a]) word ↔ Derives a word := by
  simp only [seq_cons_iff, seq_nil_iff]
  constructor
  · rintro ⟨first, _, rfl, derives, rfl⟩
    simpa only [List.append_nil] using derives
  · intro derives
    exact ⟨word, [], (List.append_nil word).symm, derives, rfl⟩

@[simp high] theorem seq_tok_cons_iff : Derives (seq (tok k :: es)) word ↔
    ∃ rest, word = k :: rest ∧ Derives (seq es) rest := by
  simp only [seq_cons_iff, tok_iff]
  constructor
  · rintro ⟨_, rest, rfl, rfl, derives⟩
    exact ⟨rest, rfl, derives⟩
  · rintro ⟨rest, rfl, derives⟩
    exact ⟨[k], rest, rfl, rfl, derives⟩

@[simp high] theorem seq_any_cons_iff : Derives (seq (.any ks :: es)) word ↔
    ∃ k ∈ ks, ∃ rest, word = k :: rest ∧ Derives (seq es) rest := by
  simp only [seq_cons_iff, any_iff]
  constructor
  · rintro ⟨_, rest, rfl, ⟨k, member, rfl⟩, derives⟩
    exact ⟨k, member, rest, rfl, derives⟩
  · rintro ⟨k, member, rest, rfl, derives⟩
    exact ⟨[k], rest, rfl, ⟨k, member, rfl⟩, derives⟩

@[simp] theorem alt_nil_iff : ¬ Derives (alt []) word := by
  simp only [alt, List.foldr_nil, any_iff, List.not_mem_nil, false_and, exists_false,
    not_false_eq_true]

@[simp] theorem alt_cons_iff :
    Derives (alt (a :: es)) word ↔ Derives a word ∨ Derives (alt es) word :=
  orElse_iff

theorem many_iff : Derives (.many a) word ↔ word = [] ∨
    ∃ first rest, word = first ++ rest ∧ Derives a first ∧ Derives (.many a) rest := by
  constructor
  · intro derives
    cases derives with
    | manyNil => exact .inl rfl
    | manyCons head tail => exact .inr ⟨_, _, rfl, head, tail⟩
  · rintro (rfl | ⟨first, rest, rfl, head, tail⟩)
    · exact .manyNil
    · exact .manyCons head tail

theorem many_append {first second : List TokenKind} (left : Derives (.many a) first)
    (right : Derives (.many a) second) : Derives (.many a) (first ++ second) := by
  obtain ⟨e, same⟩ : ∃ e, e = Pattern.many a := ⟨_, rfl⟩
  rw [← same] at left
  induction left with
  | manyNil => exact right
  | manyCons head _ _ ih =>
    obtain rfl := Pattern.many.inj same
    rw [List.append_assoc]
    exact .manyCons head (ih rfl)
  | _ => exact absurd same (by simp)

theorem many_last (derives : Derives (.many a) word) : word = [] ∨
    ∃ front last, word = front ++ last ∧ Derives (.many a) front ∧ Derives a last := by
  obtain ⟨e, same⟩ : ∃ e, e = Pattern.many a := ⟨_, rfl⟩
  rw [← same] at derives
  induction derives with
  | manyNil => exact .inl rfl
  | manyCons head _ _ ih =>
    obtain rfl := Pattern.many.inj same
    rcases ih rfl with rfl | ⟨front, last, rfl, more, final⟩
    · exact .inr ⟨[], _, by simp, .manyNil, head⟩
    · exact .inr ⟨_, last, (List.append_assoc ..).symm, .manyCons head more, final⟩
  | _ => exact absurd same (by simp)

theorem more_iff : Derives (more a) word ↔ word = [] ∨
    ∃ first rest, word = .comma :: (first ++ rest) ∧ Derives a first ∧ Derives (more a) rest := by
  unfold more
  rw [many_iff]
  simp only [seq_cons_iff, tok_iff, seq_nil_iff]
  constructor
  · rintro (rfl | ⟨_, rest, rfl, ⟨_, _, rfl, rfl, first, _, rfl, head, rfl⟩, tail⟩)
    · exact .inl rfl
    · exact .inr ⟨first, rest, by simp, head, tail⟩
  · rintro (rfl | ⟨first, rest, rfl, head, tail⟩)
    · exact .inl rfl
    · exact .inr ⟨.comma :: first, rest, by simp, ⟨[.comma], first, rfl, rfl, first, [], by simp,
        head, rfl⟩, tail⟩

@[simp] theorem listOf_iff : Derives (listOf a) word ↔
    ∃ first rest, word = first ++ rest ∧ Derives a first ∧ Derives (more a) rest := by
  simp only [listOf, seq_cons_iff, seq_nil_iff]
  constructor
  · rintro ⟨first, _, rfl, head, rest, _, rfl, tail, rfl⟩
    exact ⟨first, rest, by simp, head, tail⟩
  · rintro ⟨first, rest, rfl, head, tail⟩
    exact ⟨first, rest, rfl, head, rest, [], by simp, tail, rfl⟩

@[simp] theorem parens_iff : Derives (parens a) word ↔
    ∃ inside, word = .lParen :: (inside ++ [.rParen]) ∧ Derives a inside := by
  simp only [parens, seq_cons_iff, tok_iff, seq_nil_iff]
  constructor
  · rintro ⟨_, _, rfl, rfl, inside, _, rfl, body, _, _, rfl, rfl, rfl⟩
    exact ⟨inside, by simp, body⟩
  · rintro ⟨inside, rfl, body⟩
    exact ⟨[.lParen], inside ++ [.rParen], rfl, rfl, inside, [.rParen], rfl, body, [.rParen], [],
      rfl, rfl, rfl⟩

theorem argument_iff : Derives (.ref .argument) word ↔
    Derives (.ref .call) word ∨ Derives (.ref .path) word :=
  ref_iff.trans (by simp only [Phrase.rule, alt_cons_iff, alt_nil_iff, or_false])

theorem choice (member : a ∈ es) (body : Derives a word) : Derives (alt es) word := by
  induction es with
  | nil => contradiction
  | cons e es ih =>
    rcases List.mem_cons.mp member with rfl | member
    · exact .orElseLeft body
    · exact .orElseRight (ih member)

theorem pair {first second : List TokenKind} (left : Derives a first) (right : Derives b second) :
    Derives (seq [a, b]) (first ++ second) :=
  .andThen left (seq_singleton_iff.mpr right)

theorem tokThen (body : Derives (seq es) word) : Derives (seq (tok k :: es)) (k :: word) :=
  seq_tok_cons_iff.mpr ⟨word, rfl, body⟩

theorem anyThen (member : k ∈ ks) (body : Derives (seq es) word) :
    Derives (seq (.any ks :: es)) (k :: word) :=
  seq_any_cons_iff.mpr ⟨k, member, word, rfl, body⟩

theorem inParens (body : Derives a word) : Derives (parens a) (.lParen :: (word ++ [.rParen])) :=
  parens_iff.mpr ⟨word, rfl, body⟩

end Derives

end SoqlAssist.Grammar
