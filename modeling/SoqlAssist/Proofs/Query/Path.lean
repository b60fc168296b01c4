import SoqlAssist.Proofs.Grammar.Path
import SoqlAssist.Proofs.Query.Enclosure
import SoqlAssist.Proofs.Query.Spans
import SoqlAssist.Proofs.Token.Spelling
import SoqlAssist.Proofs.Tree.WellFormed

/-!
The text of a path. It is that of the names of the path with dots between, and no name has a dot in
it; so the part before the first dot is the first name, and a path loses its leading object exactly
if that is its first name and others follow.
-/
namespace SoqlAssist

theorem Text.join_flatMap {α : Type} (l : List α) (f : α → List String) :
    String.join (l.flatMap f) = String.join (l.map fun a => String.join (f a)) := by
  induction l with
  | nil => rfl
  | cons a l ih => rw [List.flatMap_cons, String.join_append, ih, List.map_cons, String.join_cons]

namespace Tree

variable {t : Tree} {tokens : TokenStream} {F : Forest} {limit n : Nat} {r : Rule}

def IsDot (t : Tree) (tokens : TokenStream) (d : Nat) : Prop :=
  ∃ p, t.token? d = some p ∧ tokens.kindAt p = .dot

/-- The nodes are names with dots between, and the names have these texts. A dot behind which the
name is missing counts as one before an empty name. -/
inductive Dotted (t : Tree) (tokens : TokenStream) : List Nat → List String → Prop where
  | last {x : Nat} (name : t.rule? x = some .identifier) : Dotted t tokens [x] [t.text x tokens]
  | missing {x d : Nat} (name : t.rule? x = some .identifier) (dot : t.IsDot tokens d) :
      Dotted t tokens [x, d] [t.text x tokens, ""]
  | more {x d : Nat} {nodes : List Nat} {names : List String}
      (name : t.rule? x = some .identifier) (dot : t.IsDot tokens d)
      (rest : Dotted t tokens nodes names) :
      Dotted t tokens (x :: d :: nodes) (t.text x tokens :: names)

/-- The text of a rule is that of its children run together. -/
theorem Planted.text_eq (planted : t.Planted F limit) (rule : t.rule? n = some r) :
    t.text n tokens = String.join ((t.children n).map (t.text · tokens)) := by
  obtain ⟨s, below, held, _⟩ := planted.holds rule
  have split : t.leaves n = (t.children n).flatMap t.leaves := by
    rw [leaves, held.token]
    exact flatMap_children planted.lodged planted.size t.leaves n
  rw [text, split, List.map_flatMap, Text.join_flatMap]
  rfl

section Dotted

variable {nodes : List Nat} {names : List String}

theorem Dotted.ne_nil (dotted : t.Dotted tokens nodes names) : names ≠ [] := by
  cases dotted <;> exact List.cons_ne_nil _ _

/-- The texts of the nodes run together. -/
theorem Dotted.join_eq (dots : ∀ d, t.IsDot tokens d → t.text d tokens = ".")
    (dotted : t.Dotted tokens nodes names) :
    String.join (nodes.map (t.text · tokens)) = ".".intercalate names := by
  induction dotted with
  | last _ => simp
  | missing _ dot => simp [dots _ dot, String.intercalate_cons_cons]
  | more _ dot rest ih =>
    rw [List.map_cons, List.map_cons, String.join_cons, String.join_cons, ih, dots _ dot,
      String.intercalate_cons_of_ne_nil rest.ne_nil, String.append_assoc]

/-- The first of the texts is that of a name. -/
theorem Dotted.exists_head (dotted : t.Dotted tokens nodes names) :
    ∃ x rest, t.rule? x = some .identifier ∧ names = t.text x tokens :: rest := by
  cases dotted with
  | last name => exact ⟨_, _, name, rfl⟩
  | missing name => exact ⟨_, _, name, rfl⟩
  | more name => exact ⟨_, _, name, rfl⟩

end Dotted

theorem text_token {p : Nat} (token : t.token? n = some p) :
    t.text n tokens = (tokens[p]?.map (·.text)).getD "" := by
  rw [text, leaves, token]
  simp

end Tree

namespace Forest.Lodged

variable {t : Tree} {tokens : TokenStream} {F : Forest} {parent : Option Nat} {i : Nat}

/-- A row that begins with a name and goes on as a path does. -/
theorem exists_dotted {labels : List Label} (lodged : F.Lodged t.nodes parent i)
    (same : F.labels tokens.kindAt = .rule .identifier :: labels) (continues : Continues labels) :
    ∃ names, t.Dotted tokens (F.roots i) names := by
  -- Each turn takes a name and the dot behind it, so the row that is left begins with a name again.
  induction continues generalizing F i with
  | nil =>
    obtain ⟨s, below, next, rfl, rest⟩ := labels_eq_rule same
    obtain rfl := labels_eq_nil rest
    exact ⟨_, .last lodged.holds.rule⟩
  | dot =>
    obtain ⟨s, below, next, rfl, rest⟩ := labels_eq_rule same
    obtain ⟨p, tail, rfl, dot, none⟩ := labels_eq_token rest
    obtain rfl := labels_eq_nil none
    exact ⟨_, .missing lodged.holds.rule ⟨p, lodged.2.2.token_leaf, dot⟩⟩
  | name _ ih =>
    obtain ⟨s, below, next, rfl, rest⟩ := labels_eq_rule same
    obtain ⟨p, tail, rfl, dot, more⟩ := labels_eq_token rest
    obtain ⟨names, dotted⟩ := ih lodged.2.2.2 more
    exact ⟨_, .more lodged.holds.rule ⟨p, lodged.2.2.token_leaf, dot⟩ dotted⟩

end Forest.Lodged

namespace Analysis

/-- The names of a path from the object on: without the first, if that is the name of the object and
others follow. -/
def relativeNames (object : String) (names : List String) : List String :=
  if 2 ≤ names.length ∧ names.head? = some object then names.tail else names

theorem ne_dot {cs : List Char} (free : '.' ∉ cs) : ∀ c ∈ cs, (c != '.') = true := by
  intro c member
  rw [bne_iff_ne]
  rintro rfl
  exact free member

theorem withoutQualifier_plain {object path : String} (free : '.' ∉ path.toList) :
    withoutQualifier object path = path := by
  rw [withoutQualifier, List.span_eq_takeWhile_dropWhile,
    List.dropWhile_eq_nil_iff.mpr (ne_dot free)]

theorem withoutQualifier_dot {object name : String} (rest : String) (free : '.' ∉ name.toList) :
    withoutQualifier object (name ++ "." ++ rest) =
      if name = object then rest else name ++ "." ++ rest := by
  have split : (name ++ "." ++ rest).toList = name.toList ++ '.' :: rest.toList := by
    simp
  rw [withoutQualifier, List.span_eq_takeWhile_dropWhile, split,
    List.takeWhile_append_of_pos (ne_dot free), List.dropWhile_append_of_pos (ne_dot free)]
  simp

/-- The first name of a path is what stands before its first dot. -/
theorem withoutQualifier_intercalate {object name : String} (rest : List String)
    (free : '.' ∉ name.toList) :
    withoutQualifier object (".".intercalate (name :: rest)) =
      ".".intercalate (relativeNames object (name :: rest)) := by
  cases rest with
  | nil =>
    rw [relativeNames, if_neg (by simp), String.intercalate_singleton]
    exact withoutQualifier_plain free
  | cons next rest =>
    rw [String.intercalate_cons_cons, withoutQualifier_dot _ free, relativeNames]
    by_cases same : name = object
    · rw [if_pos same, if_pos (by simp [same]), List.tail_cons]
    · rw [if_neg same, if_neg (by simp [same]), String.intercalate_cons_cons]

end Analysis

section Parse

open Text Grammar

variable {text : String} {F : Forest} {d f n : Nat}

theorem text_dot (dot : (parse text).tree.IsDot (tokenize text) d) :
    (parse text).tree.text d (tokenize text) = "." := by
  obtain ⟨p, token, kind⟩ := dot
  rw [Tree.text_token token]
  cases found : (tokenize text)[p]? with
  | none => simp [TokenStream.kindAt, found] at kind
  | some t =>
    have own : t.kind = .dot := by simpa [TokenStream.kindAt, found] using kind
    have small := tokenize_spelling (w := ".") found (by rw [own]; rfl)
    rw [lower] at small
    obtain ⟨c, chars, lowered⟩ := List.map_eq_singleton_iff.mp small
    have same := class_toLower (p := (· == '.')) (by decide) c
    rw [lowered] at same
    obtain rfl := beq_iff_eq.mp same.symm
    exact String.toList_inj.mp chars

theorem parse_pathed (text : String) :
    ∃ F, (parse text).tree.Planted F (tokenize text).size ∧ Pathed (tokenize text).kindAt F := by
  obtain ⟨start, below, s', grows, _, planted⟩ := parse_planted (tokenize text)
  exact ⟨_, planted, (grows_query (fun _ _ _ _ => paths_of_made) grows).pathed⟩

variable (planted : (parse text).tree.Planted F (tokenize text).size)
  (pathed : Pathed (tokenize text).kindAt F)
include planted pathed

/-- No name has a dot in it. -/
theorem dot_not_mem_name (name : (parse text).tree.rule? n = some .identifier) :
    '.' ∉ ((parse text).tree.text n (tokenize text)).toList := by
  obtain ⟨s, below, held, _, every⟩ := planted.holds name
  rw [Tree.text, planted.leaves_eq held]
  rcases every _ pathed with empty | ⟨k, word, single⟩
  · rw [Forest.labels_eq_nil empty]
    exact List.not_mem_nil
  · obtain ⟨p, next, rfl, kind, rest⟩ := Forest.labels_eq_token single
    obtain rfl := Forest.labels_eq_nil rest
    have words : ∀ k ∈ nameKinds, k ∈ Lexer.wordKinds := by decide
    cases found : (tokenize text)[p]? with
    | none => simp [Forest.leaves, found]
    | some t =>
      have own : t.kind = k := by simpa [TokenStream.kindAt, found] using kind
      have chars := tokenize_word found (own ▸ words k word)
      intro member
      have dot := chars '.' (by simpa [Forest.leaves, found] using member)
      exact absurd dot (by decide)

/-- Every path consists of names with dots between. -/
theorem dotted_children (path : (parse text).tree.rule? f = some .field) :
    ∃ names, (parse text).tree.Dotted (tokenize text) ((parse text).tree.children f) names := by
  obtain ⟨s, below, held, _, every⟩ := planted.holds path
  obtain ⟨rest, labels, continues⟩ := every _ pathed
  rw [held.children]
  exact held.2.exists_dotted labels continues

/-- A path without its leading object, by the names of the path. -/
theorem withoutQualifier_dotted {names : List String} (object : String)
    (path : (parse text).tree.rule? f = some .field)
    (dotted : (parse text).tree.Dotted (tokenize text) ((parse text).tree.children f) names) :
    Analysis.withoutQualifier object ((parse text).tree.text f (tokenize text)) =
      ".".intercalate (Analysis.relativeNames object names) := by
  obtain ⟨x, rest, name, rfl⟩ := dotted.exists_head
  rw [planted.text_eq path, dotted.join_eq fun _ => text_dot]
  exact Analysis.withoutQualifier_intercalate rest (dot_not_mem_name planted pathed name)

end Parse

end SoqlAssist
