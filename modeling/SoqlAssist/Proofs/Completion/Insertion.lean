import SoqlAssist.Proofs.Completion.Origin
import SoqlAssist.Proofs.Token.Writing

/-!
What a suggested word inserts. The label of a suggestion for a candidate token, read as a text, is
the candidate with the kinds that must follow it, those without a spelling aside, and the
parentheses that an operator before a list and `COUNT` come with. Nothing else is inserted and no
two words or signs run together, however many kinds follow.
-/
namespace SoqlAssist

open Lexer

/-- The kinds of the visible tokens of a text, the end aside. -/
def kindsOf (text : String) : List TokenKind :=
  visibleKinds (tokenize text).toList

namespace Completion

variable {c : TokenCandidate} {label : String}

def parenthesesFor (label : String) : List TokenKind :=
  if label ∈ ["IN", "NOT IN", "INCLUDES", "EXCLUDES"] then [.lParen]
  else if label = "COUNT" then [.lParen, .rParen]
  else []

/-- What is shown behind a label is separated from it and read as its parentheses. -/
theorem shownLabel_eq_append (label : String) :
    ∃ added : String, shownLabel label = label ++ added ∧
      Reads added.toList (parenthesesFor label) ∧ Separated added.toList := by
  have left : Writes .lParen ['('] := writes_sign (by decide)
  have right : Writes .rParen [')'] := writes_sign (by decide)
  have same : listOperators.contains label = true ↔
      label ∈ ["IN", "NOT IN", "INCLUDES", "EXCLUDES"] := List.contains_iff_mem
  by_cases listed : label ∈ ["IN", "NOT IN", "INCLUDES", "EXCLUDES"]
  · rw [shownLabel, if_pos (same.mpr listed), parenthesesFor, if_pos listed]
    have opened : Reads ['('] [.lParen] := reads_nil.token left rfl separated_nil
    exact ⟨" (", rfl, opened.space (left.solid rfl []), separated_cons (by decide)⟩
  · rw [shownLabel, if_neg fun member => listed (same.mp member), parenthesesFor, if_neg listed]
    by_cases count : label = "COUNT"
    · have closed : Reads [')'] [.rParen] := reads_nil.token right rfl separated_nil
      rw [if_pos count, if_pos count, count]
      exact ⟨"()", rfl, closed.token left rfl (separated_cons (by decide)),
        separated_cons (by decide)⟩
    · rw [if_neg count, if_neg count]
      exact ⟨"", String.append_empty.symm, reads_nil, separated_nil⟩

/-- The label of a candidate is read as the candidate. -/
theorem kindsOf_shownLabel (labelled : candidateLabel? c = some label) :
    kindsOf (shownLabel label) =
      c.kind :: c.following.filter (·.spelling?.isSome) ++ parenthesesFor label := by
  obtain ⟨word, spelled, rfl⟩ := Option.map_eq_some_iff.mp labelled
  obtain ⟨added, shown, reads, separated⟩ := shownLabel_eq_append
    (" ".intercalate ((word :: c.following.filterMap (·.spelling?)).map Text.upper))
  rw [shown, kindsOf, tokenize, List.toList_toArray, String.toList_append]
  exact reads_spaced spelled c.following reads separated .origin 0

/-- The operators that come with others, and what they are read as. -/
def siblingKinds : List (String × List TokenKind) :=
  [("<=", [.lt, .eq]), (">=", [.gt, .eq]), ("!=", [.notEq]), ("<>", [.lt, .gt])]

theorem kindsOf_sibling : ∀ pair ∈ siblingKinds, kindsOf pair.1 = pair.2 := by
  decide +kernel

theorem sibling_listed {sibling : String} (paired : sibling ∈ siblingLabels label) :
    (sibling, kindsOf sibling) ∈ siblingKinds := by
  have pairs : ∀ pair ∈ siblingPairs, pair.2 ∈ siblingKinds.map (·.1) := by decide
  obtain ⟨entry, listed, rfl⟩ := List.mem_map.mp (pairs _ (mem_siblingLabels.mp paired))
  rw [kindsOf_sibling entry listed]
  exact listed

/-- Every suggestion for a candidate token is read as the candidate, the kinds that follow it and
have a spelling, and its parentheses; all other suggestions are operators of two signs that come
with one of those, and are read as their signs. -/
theorem inserts_candidate (ctx : CompletionContext) (candidates : List TokenCandidate) :
    (∀ c ∈ candidates, ∀ item, keywordItem? ctx c = some item →
      item ∈ tokenItems ctx candidates ∧ ∃ label, candidateLabel? c = some label ∧
        kindsOf item.label =
          c.kind :: c.following.filter (·.spelling?.isSome) ++ parenthesesFor label) ∧
    (∀ item ∈ tokenItems ctx candidates,
      (∃ c ∈ candidates, keywordItem? ctx c = some item) ∨
        (item.label, kindsOf item.label) ∈ siblingKinds) ∧
    ∀ pair ∈ siblingKinds, kindsOf pair.1 = pair.2 := by
  refine ⟨?_, ?_, kindsOf_sibling⟩
  · intro c candidate item made
    refine ⟨mem_tokenItems.mpr ⟨c, candidate, item, made, List.mem_cons_self⟩, ?_⟩
    obtain ⟨_, label, labelled, _, rfl⟩ := keywordItem_eq_some_iff.mp made
    exact ⟨label, labelled, kindsOf_shownLabel labelled⟩
  · intro item member
    obtain ⟨c, candidate, own, made, sibling⟩ := mem_tokenItems.mp member
    rcases List.mem_cons.mp sibling with rfl | sibling
    · exact .inl ⟨c, candidate, made⟩
    · obtain ⟨label, paired, rfl⟩ := List.mem_map.mp sibling
      exact .inr (sibling_listed paired)

/-- Two minus signs in a row start no comment, and a colon behind them no variable. -/
theorem inserts_candidate_signs :
    let ctx := CompletionContext.ofDocument openCondition 12 "Object"
    let c : TokenCandidate := ⟨.minus, [.minus, .string, .colon, .identifier]⟩
    let item := CompletionItem.keyword "- - :"
    keywordItem? ctx c = some item ∧ item ∈ tokenItems ctx [c] ∧
      kindsOf "- - :" = [.minus, .minus, .colon] := by
  intro ctx c item
  have made : keywordItem? ctx c = some item := by decide +kernel
  have listed : candidateLabel? c = some "- - :" := by decide +kernel
  obtain ⟨member, label, labelled, kinds⟩ :=
    (inserts_candidate ctx [c]).1 c List.mem_cons_self item made
  obtain rfl := Option.some.inj (listed.symm.trans labelled)
  exact ⟨made, member, kinds⟩

end Completion

end SoqlAssist
