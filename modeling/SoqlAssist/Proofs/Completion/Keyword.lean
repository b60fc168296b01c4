import Mathlib
import SoqlAssist.Completion.Engine

/-!
Labels of reserved words and operators. A label starts with the word of its candidate's kind, and no
two kinds are spelled alike, so the labels of different kinds differ; what is added after the word,
a parenthesis or the words that follow, makes no difference. Only the siblings of an operator are
labels without a candidate: one of them, `!=`, is the sign of a kind of its own, and it is listed
twice exactly if both `=` and `!=` are suggested alone.
-/
namespace SoqlAssist

theorem Candidates.pairwise_firstOfEach {α κ : Type} [DecidableEq κ] (key : α → κ) (seen : List κ)
    (xs : List α) :
    (∀ x ∈ firstOfEach key seen xs, key x ∉ seen) ∧
      (firstOfEach key seen xs).Pairwise (key · ≠ key ·) := by
  induction xs generalizing seen with
  | nil => exact ⟨fun x member => absurd member List.not_mem_nil, .nil⟩
  | cons x xs ih =>
    rw [firstOfEach]
    split
    · exact ih seen
    · rename_i unseen
      obtain ⟨fresh, apart⟩ := ih (key x :: seen)
      constructor
      · intro y member
        rcases List.mem_cons.mp member with rfl | member
        · exact unseen
        · exact fun known => fresh y member (List.mem_cons_of_mem _ known)
      · refine List.pairwise_cons.mpr ⟨fun y member same => ?_, apart⟩
        exact fresh y member (same ▸ List.mem_cons_self)

namespace Completion

variable {ctx : CompletionContext} {c c' : TokenCandidate} {label l : String}
  {item item' : CompletionItem}

def firstWord (label : String) : List Char :=
  label.toList.takeWhile (· != ' ')

def kindOfWord? (word : List Char) : Option TokenKind :=
  TokenKind.all.find? fun k => k.spelling?.any fun w => (Text.upper w).toList == word

def kindOfLabel? (label : String) : Option TokenKind :=
  if label = "COUNT()" then some .COUNT else kindOfWord? (firstWord label)

theorem firstWord_append (s : String) {t : String} (spaced : t.toList.head? = some ' ') :
    firstWord (s ++ t) = firstWord s := by
  obtain ⟨rest, split⟩ := List.head?_eq_some_iff.mp spaced
  rw [firstWord, String.toList_append, split, List.takeWhile_append,
    List.takeWhile_cons_of_neg (by simp), List.append_nil]
  split
  · rename_i whole
    exact ((List.takeWhile_prefix _).eq_of_length whole).symm
  · rfl

/-- No two kinds have the same word. -/
theorem kindOfWord_spelling {k : TokenKind} {w : String} (spelled : k.spelling? = some w) :
    kindOfWord? (firstWord (Text.upper w)) = some k := by
  cases k <;> cases spelled <;> rfl

/-- A label starts with the word of the candidate's kind; it is that word alone if nothing that
follows has a spelling, and otherwise more words come after a space. -/
theorem candidateLabel_eq_some (labelled : candidateLabel? c = some label) :
    ∃ w, c.kind.spelling? = some w ∧ firstWord label = firstWord (Text.upper w) ∧
      (label = Text.upper w ↔ ∀ k ∈ c.following, k.spelling? = none) := by
  obtain ⟨w, spelled, rfl⟩ := Option.map_eq_some_iff.mp labelled
  refine ⟨w, spelled, ?_⟩
  rw [← List.filterMap_eq_nil_iff]
  cases c.following.filterMap (·.spelling?) with
  | nil => simp [String.intercalate_singleton]
  | cons next words =>
    have longer (t : String) : Text.upper w ++ " " ++ t ≠ Text.upper w := by
      intro same
      have length := congrArg String.length same
      rw [String.length_append, String.length_append] at length
      have one : " ".length = 1 := rfl
      omega
    rw [List.map_cons, List.map_cons, String.intercalate_cons_cons]
    refine ⟨?_, ?_⟩
    · rw [String.append_assoc]
      exact firstWord_append _ (by simp)
    · simp [longer]

theorem kindOfWord_candidate (labelled : candidateLabel? c = some label) :
    kindOfWord? (firstWord label) = some c.kind := by
  obtain ⟨w, spelled, first, _⟩ := candidateLabel_eq_some labelled
  rw [first, kindOfWord_spelling spelled]

theorem ne_call_of_word {k : TokenKind} (starts : kindOfWord? (firstWord label) = some k) :
    label ≠ "COUNT()" := by
  rintro rfl
  have none : kindOfWord? (firstWord "COUNT()") = none := by decide +kernel
  rw [none] at starts
  cases starts

theorem kindOfLabel_of_word {k : TokenKind} (starts : kindOfWord? (firstWord label) = some k) :
    kindOfLabel? label = some k := by
  rw [kindOfLabel?, if_neg (ne_call_of_word starts), starts]

/-- The label of a suggestion tells the kind of its candidate. -/
theorem kindOfLabel_shown (labelled : candidateLabel? c = some label) :
    kindOfLabel? (shownLabel label) = some c.kind := by
  have starts := kindOfWord_candidate labelled
  rw [shownLabel]
  split
  · refine kindOfLabel_of_word ?_
    rwa [firstWord_append label rfl]
  split
  · rename_i _ count
    rw [count] at starts
    exact (by decide +kernel : kindOfLabel? "COUNT()" = kindOfWord? (firstWord "COUNT")).trans starts
  · exact kindOfLabel_of_word starts

/-- Only operators before a list and `COUNT` are not shown as they are. -/
theorem shownLabel_eq_iff {l : String} (plain : l ∉ ["COUNT", "COUNT()"])
    (unlisted : l ∉ listOperators ∧ ∀ op ∈ listOperators, op ++ " (" ≠ l) (label : String) :
    shownLabel label = l ↔ label = l := by
  rw [shownLabel]
  grind

theorem shownLabel_eq_call (labelled : candidateLabel? c = some label)
    (shown : shownLabel label = "COUNT()") : label = "COUNT" := by
  have other := ne_call_of_word (kindOfWord_candidate labelled)
  have lists : ∀ op ∈ listOperators, op ++ " (" ≠ "COUNT()" := by decide
  rw [shownLabel] at shown
  grind

/-- What stands around the cursor does not rule the candidate out: it is not there already, and it
is no `=` right after `<` or `>`. -/
def Fits (ctx : CompletionContext) (c : TokenCandidate) : Prop :=
  c.kind ≠ ctx.cursorKind ∧
    (c.kind = .eq → Lookaround.isAfter ctx.tokens ctx.cursor [[.lt, .gt]] = false)

theorem keywordItem_eq_some_iff :
    keywordItem? ctx c = some item ↔
      Fits ctx c ∧ ∃ label, candidateLabel? c = some label ∧
        (ctx.isNested = true → label ≠ "COUNT" ∧ label ≠ "GROUP BY") ∧
        item = { CompletionItem.keyword (shownLabel label) with
          preselect := shownLabel label == "WHERE"
          hint := operatorHint? ctx c.kind label } := by
  rw [keywordItem?, Fits]
  cases candidateLabel? c with
  | none => simp
  | some label => grind

theorem kindOfLabel_keyword (made : keywordItem? ctx c = some item) :
    kindOfLabel? item.label = some c.kind := by
  obtain ⟨_, label, labelled, _, rfl⟩ := keywordItem_eq_some_iff.mp made
  exact kindOfLabel_shown labelled

theorem labels_withSiblings (item : CompletionItem) :
    (withSiblings item).map (·.label) = item.label :: siblingLabels item.label := by
  rw [withSiblings, List.map_cons, List.map_map]
  exact congrArg (item.label :: ·) (List.map_id _)

theorem labels_tokenItems (ctx : CompletionContext) (cs : List TokenCandidate) :
    (tokenItems ctx cs).map (·.label) =
      (cs.filterMap (keywordItem? ctx)).flatMap fun item =>
        item.label :: siblingLabels item.label := by
  rw [tokenItems, List.map_flatMap]
  simp only [labels_withSiblings]

/-- The operators that come with another: each has one operator that it comes with. -/
def siblingPairs : List (String × String) :=
  [("<", "<="), (">", ">="), ("=", "!="), ("=", "<>")]

theorem mem_siblingLabels : l ∈ siblingLabels label ↔ (label, l) ∈ siblingPairs := by
  rw [siblingLabels, siblingPairs]
  grind

theorem nodup_siblings (label : String) : (label :: siblingLabels label).Nodup := by
  rw [siblingLabels]
  split
  · simp_all
  split
  · simp_all
  split <;> simp_all

/-- A sibling is the label of a candidate only if it is `!=`. -/
theorem sibling_of_kind {k : TokenKind} (sibling : l ∈ siblingLabels label)
    (kind : kindOfLabel? l = some k) : label = "=" ∧ l = "!=" := by
  have kinds : siblingPairs.map (fun pair => kindOfLabel? pair.2) =
      [none, none, some .notEq, none] := by decide +kernel
  simp only [siblingPairs, List.map_cons, List.cons.injEq] at kinds
  rw [mem_siblingLabels, siblingPairs] at sibling
  simp only [List.mem_cons, Prod.mk.injEq, List.not_mem_nil, or_false] at sibling
  rcases sibling with ⟨rfl, rfl⟩ | ⟨rfl, rfl⟩ | ⟨rfl, rfl⟩ | ⟨rfl, rfl⟩
  · rw [kinds.1] at kind
    cases kind
  · rw [kinds.2.1] at kind
    cases kind
  · exact ⟨rfl, rfl⟩
  · rw [kinds.2.2.2.1] at kind
    cases kind

/-- Suggestions of candidates of different kinds share no label but `!=`, which comes with `=`. -/
theorem shared_label (made : keywordItem? ctx c = some item)
    (made' : keywordItem? ctx c' = some item') (apart : c.kind ≠ c'.kind)
    (first : l ∈ item.label :: siblingLabels item.label)
    (second : l ∈ item'.label :: siblingLabels item'.label) :
    l = "!=" ∧ (item.label = "=" ∧ item'.label = "!=" ∨ item'.label = "=" ∧ item.label = "!=") := by
  have kind := kindOfLabel_keyword made
  have kind' := kindOfLabel_keyword made'
  rcases List.mem_cons.mp first with rfl | sibling <;>
    rcases List.mem_cons.mp second with same | sibling'
  · rw [same, kind', Option.some.injEq] at kind
    exact absurd kind.symm apart
  · obtain ⟨base, unequal⟩ := sibling_of_kind sibling' kind
    exact ⟨unequal, .inr ⟨base, unequal⟩⟩
  · subst same
    obtain ⟨base, unequal⟩ := sibling_of_kind sibling kind'
    exact ⟨unequal, .inl ⟨base, unequal⟩⟩
  · have bases : item.label = item'.label := by
      rw [mem_siblingLabels, siblingPairs] at sibling sibling'
      grind
    rw [bases, kind', Option.some.injEq] at kind
    exact absurd kind.symm apart

/-- A candidate of the kind is suggested by its sign alone: nothing that follows it has a
spelling. -/
def OffersAlone (ctx : CompletionContext) (cs : List TokenCandidate) (kind : TokenKind) : Prop :=
  ∃ c ∈ cs, c.kind = kind ∧ Fits ctx c ∧ ∀ k ∈ c.following, k.spelling? = none

def equalities : List (TokenKind × String) :=
  [(.eq, "="), (.notEq, "!=")]

theorem eq_mem_equalities : (.eq, "=") ∈ equalities :=
  List.mem_cons_self

theorem notEq_mem_equalities : (.notEq, "!=") ∈ equalities :=
  List.mem_cons_of_mem _ List.mem_cons_self

/-- A sign is shown as it is and never held back for an aggregate. -/
structure PlainSign (kind : TokenKind) (sign : String) : Prop where
  spelled : kind.spelling? = some sign
  capital : Text.upper sign = sign
  shown : ∀ label, shownLabel label = sign ↔ label = sign
  kind : kindOfLabel? sign = some kind
  no_aggregate : sign ≠ "COUNT" ∧ sign ≠ "GROUP BY"

theorem plainSign_of_equality {kind : TokenKind} {sign : String}
    (equality : (kind, sign) ∈ equalities) : PlainSign kind sign := by
  simp only [equalities, List.mem_cons, Prod.mk.injEq, List.not_mem_nil, or_false] at equality
  rcases equality with ⟨rfl, rfl⟩ | ⟨rfl, rfl⟩
  · exact ⟨rfl, rfl, shownLabel_eq_iff (by decide) (by decide), by decide +kernel, by decide⟩
  · exact ⟨rfl, rfl, shownLabel_eq_iff (by decide) (by decide), by decide +kernel, by decide⟩

/-- An operator is suggested under its sign exactly if it is suggested alone. -/
theorem PlainSign.offered_iff {kind : TokenKind} {sign : String} {cs : List TokenCandidate}
    (plain : PlainSign kind sign) :
    OffersAlone ctx cs kind ↔
      ∃ c ∈ cs, ∃ item, keywordItem? ctx c = some item ∧ item.label = sign := by
  constructor
  · rintro ⟨c, member, rfl, fits, alone⟩
    obtain ⟨label, labelled⟩ : ∃ label, candidateLabel? c = some label := by
      rw [candidateLabel?, plain.spelled]
      exact ⟨_, rfl⟩
    obtain ⟨w, spelled, _, word⟩ := candidateLabel_eq_some labelled
    obtain rfl := Option.some.inj (plain.spelled.symm.trans spelled)
    obtain rfl : label = sign := (word.mpr alone).trans plain.capital
    exact ⟨c, member, _, keywordItem_eq_some_iff.mpr
      ⟨fits, label, labelled, fun _ => plain.no_aggregate, rfl⟩, (plain.shown label).mpr rfl⟩
  · rintro ⟨c, member, item, made, named⟩
    have kind := kindOfLabel_keyword made
    rw [named, plain.kind, Option.some.injEq] at kind
    subst kind
    obtain ⟨fits, label, labelled, _, rfl⟩ := keywordItem_eq_some_iff.mp made
    obtain rfl := (plain.shown label).mp named
    obtain ⟨w, spelled, _, word⟩ := candidateLabel_eq_some labelled
    obtain rfl := Option.some.inj (plain.spelled.symm.trans spelled)
    exact ⟨c, member, rfl, fits, word.mp plain.capital.symm⟩

theorem offersAlone_iff {kind : TokenKind} {sign : String} {cs : List TokenCandidate}
    (equality : (kind, sign) ∈ equalities) :
    OffersAlone ctx cs kind ↔
      ∃ c ∈ cs, ∃ item, keywordItem? ctx c = some item ∧ item.label = sign :=
  (plainSign_of_equality equality).offered_iff

/-- Labels of suggestions for different kinds are alike only where both equalities are suggested
alone. -/
theorem pairwise_labels {cs : List TokenCandidate} (kinds : cs.Pairwise (·.kind ≠ ·.kind)) :
    ((tokenItems ctx cs).map (·.label)).Pairwise fun l l' =>
      l = l' → l = "!=" ∧ OffersAlone ctx cs .eq ∧ OffersAlone ctx cs .notEq := by
  have alone {c c' : TokenCandidate} {item item' : CompletionItem} (member : c ∈ cs)
      (member' : c' ∈ cs) (made : keywordItem? ctx c = some item)
      (made' : keywordItem? ctx c' = some item') (equal : item.label = "=")
      (unequal : item'.label = "!=") : OffersAlone ctx cs .eq ∧ OffersAlone ctx cs .notEq :=
    ⟨(offersAlone_iff eq_mem_equalities).mpr ⟨c, member, item, made, equal⟩,
      (offersAlone_iff notEq_mem_equalities).mpr ⟨c', member', item', made', unequal⟩⟩
  rw [labels_tokenItems, List.pairwise_flatMap]
  constructor
  · intro item _
    exact (nodup_siblings item.label).imp fun different same => absurd same different
  · refine List.pairwise_filterMap.mpr (kinds.imp_of_mem ?_)
    intro c c' member member' apart item made item' made' l first l' second same
    subst same
    obtain ⟨unequal, ⟨equal, other⟩ | ⟨equal, other⟩⟩ := shared_label made made' apart first second
    · exact ⟨unequal, alone member member' made made' equal other⟩
    · exact ⟨unequal, alone member' member made' made equal other⟩

/-- Where both equalities are suggested alone, `!=` is listed twice. -/
theorem not_nodup_labels {cs : List TokenCandidate} (equal : OffersAlone ctx cs .eq)
    (unequal : OffersAlone ctx cs .notEq) : ¬ ((tokenItems ctx cs).map (·.label)).Nodup := by
  obtain ⟨c, member, item, made, named⟩ := (offersAlone_iff eq_mem_equalities).mp equal
  obtain ⟨c', member', item', made', named'⟩ := (offersAlone_iff notEq_mem_equalities).mp unequal
  rw [labels_tokenItems, List.nodup_flatMap]
  rintro ⟨_, apart⟩
  have different : item ≠ item' := by
    rintro rfl
    exact absurd (named.symm.trans named') (by decide)
  have symmetric : Std.Symm (Function.onFun List.Disjoint fun item : CompletionItem =>
      item.label :: siblingLabels item.label) := ⟨fun _ _ disjoint => disjoint.symm⟩
  have disjoint := apart.forall (List.mem_filterMap.mpr ⟨c, member, made⟩)
    (List.mem_filterMap.mpr ⟨c', member', made'⟩) different
  simp only [Function.onFun, named, named'] at disjoint
  exact disjoint (a := "!=") (by decide) (by decide)

/-- The labels of the suggestions for the tokens that are kept are distinct but for `!=`, and `!=`
is listed twice exactly if both equalities are suggested alone. -/
theorem keyword_labels_distinct_iff (predict : Predictor) (settings : Settings)
    (ctx : CompletionContext) :
    let kept := (Candidates.collect predict ctx.analysis.parsed ctx.cursor settings).tokens
    let labels := (tokenItems ctx kept).map (·.label)
    (labels.filter (· ≠ "!=")).Nodup ∧
      (labels.Nodup ↔ ¬ (OffersAlone ctx kept .eq ∧ OffersAlone ctx kept .notEq)) := by
  intro kept labels
  have kinds : kept.Pairwise (·.kind ≠ ·.kind) := (Candidates.pairwise_firstOfEach ..).2
  have apart : labels.Pairwise fun l l' =>
      l = l' → l = "!=" ∧ OffersAlone ctx kept .eq ∧ OffersAlone ctx kept .notEq :=
    pairwise_labels kinds
  refine ⟨?_, fun distinct both => not_nodup_labels both.1 both.2 distinct, fun notBoth => ?_⟩
  · refine (apart.filter _).imp_of_mem ?_
    intro l l' member _ alike same
    have other := (List.mem_filter.mp member).2
    simp [(alike same).1] at other
  · refine List.nodup_iff_pairwise_ne.mpr (apart.imp fun alike same => ?_)
    exact notBoth (alike same).2

def openCondition : String := "SELECT Id FROM Account WHERE Name "

def bothEqualities : Predictor := fun _ => ⟨[⟨.eq, []⟩, ⟨.notEq, []⟩], []⟩

/-- Before the operator of a condition both equalities are suggested, and `!=` twice. -/
theorem keyword_labels_repeated :
    let parsed := parse (Document.ofText openCondition).padded
    let ctx := CompletionContext.ofPosition (.ofParsed parsed) 12 Settings.default.defaultObject
    let kept := (Candidates.collect bothEqualities ctx.analysis.parsed ctx.cursor .default).tokens
    let labels := (tokenItems ctx kept).map (·.label)
    Cursor.resolve ⟨1, 35⟩ parsed.tokens = .ok 12 ∧ labels = ["=", "!=", "<>", "!="] ∧
      ¬ labels.Nodup := by
  have labels : (let parsed := parse (Document.ofText openCondition).padded
      let ctx := CompletionContext.ofPosition (.ofParsed parsed) 12 Settings.default.defaultObject
      let kept := (Candidates.collect bothEqualities ctx.analysis.parsed ctx.cursor .default).tokens
      (tokenItems ctx kept).map (·.label)) = ["=", "!=", "<>", "!="] := by decide +kernel
  refine ⟨by decide +kernel, labels, ?_⟩
  simp only [labels]
  decide

end Completion

end SoqlAssist
