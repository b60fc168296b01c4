import Mathlib.Data.List.Forall2
import SoqlAssist.Completion.Site

/-!
Looking around from a position. A pattern is compared with the visible tokens next to the position
and with nothing else: as many as it has alternatives, in order, however many hidden tokens stand
between them. Both ways of going through a pattern come to a comparison one by one, so looking back
is looking ahead in the reversed stream. Where the name of a function and its parenthesis come last,
the search for a name finds that name, so an argument is suggested for the function whose
parenthesis the cursor follows.
-/
namespace SoqlAssist

namespace Lookaround

def fits : (pattern : List (List TokenKind)) → List Token → Bool
  | [], _ => true
  | _ :: _, [] => false
  | kinds :: pattern, t :: ts => kinds.contains t.kind && fits pattern ts

def Matches (pattern : List (List TokenKind)) (ts : List Token) : Prop :=
  List.Forall₂ (fun kinds t => t.kind ∈ kinds) pattern ts

/-- The visible tokens before a position in order. A position past the end stands for the end. -/
def preceding (tokens : TokenStream) (i : Nat) : List Token :=
  (tokens.toList.take (min i tokens.size)).filter (!·.isHidden)

variable {tokens : TokenStream} {i : Nat} {kinds : List TokenKind}
  {pattern : List (List TokenKind)} {ts : List Token}

section Loops

/-- Looking back stops with the last alternative that remains. -/
theorem fitsExpected_eq (ts : List Token) (kinds : List TokenKind)
    (remaining : List (List TokenKind)) :
    fitsExpected ts (some kinds) remaining = fits (kinds :: remaining) ts := by
  induction ts generalizing kinds remaining with
  | nil => rfl
  | cons t ts ih =>
    rw [fitsExpected, fits]
    cases kinds.contains t.kind with
    | false => rfl
    | true =>
      cases remaining with
      | nil => rfl
      | cons next remaining => exact ih next remaining

theorem isAfter_eq (tokens : TokenStream) (i : Nat) (pattern : List (List TokenKind)) :
    isAfter tokens i pattern = fits pattern.reverse (visibleBefore tokens i) := by
  rw [isAfter, ← List.isEmpty_reverse]
  cases pattern.reverse with
  | nil => rfl
  | cons kinds remaining => exact fitsExpected_eq _ kinds remaining

/-- Looking ahead stops with the last alternative not yet matched. -/
theorem fitsFrom_eq (ts : List Token) (matched : Fin pattern.length) :
    fitsFrom pattern ts matched = fits (pattern.drop matched) ts := by
  induction ts generalizing matched with
  | nil =>
    rw [List.drop_eq_getElem_cons matched.isLt]
    rfl
  | cons t ts ih =>
    rw [fitsFrom, Fin.getElem_fin, List.drop_eq_getElem_cons matched.isLt, fits]
    cases pattern[matched.val].contains t.kind with
    | false => rfl
    | true =>
      by_cases whole : matched.val + 1 = pattern.length
      · simp [whole, fits]
      · simp [whole, ih]

theorem isBefore_eq (tokens : TokenStream) (i : Nat) (pattern : List (List TokenKind)) :
    isBefore tokens i pattern = fits pattern (visibleFrom tokens i) := by
  rw [isBefore]
  split
  · exact fitsFrom_eq _ _
  · rename_i none
    obtain rfl := List.length_eq_zero_iff.mp (Nat.eq_zero_of_not_pos none)
    rfl

end Loops

section Directions

theorem fits_iff : fits pattern ts = true ↔
    pattern.length ≤ ts.length ∧ Matches pattern (ts.take pattern.length) := by
  induction pattern, ts using fits.induct with
  | case1 ts => simp [fits, Matches]
  | case2 kinds pattern => simp [fits]
  | case3 kinds pattern t ts ih =>
    simp only [fits, Bool.and_eq_true, List.contains_iff_mem, ih, List.length_cons,
      Nat.add_le_add_iff_right, List.take_succ_cons, Matches, List.forall₂_cons]
    exact and_left_comm

theorem visibleBefore_eq (tokens : TokenStream) (i : Nat) :
    visibleBefore tokens i = (preceding tokens i).reverse := by
  rw [visibleBefore, preceding, List.take_eq_take_min, Array.length_toList]

theorem isAfter_iff : isAfter tokens i pattern = true ↔
    pattern.length ≤ (preceding tokens i).length ∧
      Matches pattern ((preceding tokens i).drop
        ((preceding tokens i).length - pattern.length)) := by
  rw [isAfter_eq, visibleBefore_eq, fits_iff, List.length_reverse, List.length_reverse,
    List.take_reverse]
  exact and_congr_right fun _ => List.forall₂_reverse_iff

theorem isBefore_iff : isBefore tokens i pattern = true ↔
    pattern.length ≤ (visibleFrom tokens i).length ∧
      Matches pattern ((visibleFrom tokens i).take pattern.length) := by
  rw [isBefore_eq, fits_iff]

/-- Seen from the other end, the tokens before a position are those that follow it. -/
theorem visibleBefore_eq_reverse (inside : i ≤ tokens.size) :
    visibleBefore tokens i = visibleFrom tokens.reverse (tokens.size - i) := by
  have kept : tokens.toList.length - (tokens.size - i) = i := by
    rw [Array.length_toList]
    omega
  rw [visibleFrom, Array.toList_reverse, List.drop_reverse, kept, List.filter_reverse]
  rfl

theorem isAfter_eq_isBefore (inside : i ≤ tokens.size) (pattern : List (List TokenKind)) :
    isAfter tokens i pattern = isBefore tokens.reverse (tokens.size - i) pattern.reverse := by
  rw [isAfter_eq, isBefore_eq, visibleBefore_eq_reverse inside]

end Directions

section Search

theorem Matches.exists_kinds (fit : Matches pattern ts) {t : Token} (member : t ∈ ts) :
    ∃ kinds ∈ pattern, t.kind ∈ kinds := by
  induction fit with
  | nil => contradiction
  | cons first _ ih =>
    cases member with
    | head => exact ⟨_, List.mem_cons_self, first⟩
    | tail _ later =>
      obtain ⟨kinds, listed, same⟩ := ih later
      exact ⟨kinds, List.mem_cons_of_mem _ listed, same⟩

/-- The search stops at the token of the first alternative if no later one has a kind of it. -/
theorem lastBefore_of_isAfter (after : isAfter tokens i (kinds :: pattern) = true)
    (apart : ∀ others ∈ pattern, kinds.Disjoint others) :
    ∃ front t ts, preceding tokens i = front ++ t :: ts ∧ t.kind ∈ kinds ∧ Matches pattern ts ∧
      lastBefore? tokens i kinds = some t := by
  obtain ⟨_, fit⟩ := isAfter_iff.mp after
  obtain ⟨t, ts, first, later, last⟩ := List.forall₂_cons_left_iff.mp fit
  have split := List.take_append_drop ((preceding tokens i).length - (kinds :: pattern).length)
    (preceding tokens i)
  rw [last] at split
  refine ⟨_, t, ts, split.symm, first, later, ?_⟩
  -- Going back, the tokens of the later alternatives come first; none has one of the kinds.
  have passed : ts.reverse.find? (kinds.contains ·.kind) = none := by
    apply List.find?_eq_none.mpr
    intro u member found
    obtain ⟨others, listed, same⟩ := Matches.exists_kinds later (List.mem_reverse.mp member)
    exact apart others listed (List.contains_iff_mem.mp found) same
  rw [lastBefore?, visibleBefore_eq, ← split, List.reverse_append, List.reverse_cons,
    List.append_assoc, List.find?_append, passed, Option.none_or, List.singleton_append]
  exact List.find?_cons_of_pos (List.contains_iff_mem.mpr first)

end Search

section Calls

/-- The call of a function is open at a position: behind its name and behind its parenthesis stand
hidden tokens only. -/
def OpensCall (tokens : TokenStream) (i : Nat) (name paren : Token) : Prop :=
  ∃ front gap rest,
    tokens.toList.take (min i tokens.size) = front ++ name :: (gap ++ paren :: rest) ∧
    (name.isHidden = false ∧ name.kind ∈ [TokenKind.identifier, .COUNT]) ∧
    (paren.isHidden = false ∧ paren.kind = .lParen) ∧
    ∀ t ∈ gap ++ rest, t.isHidden = true

/-- The last visible tokens of a row and the hidden ones behind each of them. -/
theorem exists_gaps {row front : List Token} {name paren : Token}
    (last : row.filter (!·.isHidden) = front ++ [name, paren]) :
    ∃ front gap rest, row = front ++ name :: (gap ++ paren :: rest) ∧
      name.isHidden = false ∧ paren.isHidden = false ∧ ∀ t ∈ gap ++ rest, t.isHidden = true := by
  obtain ⟨start, _, rfl, _, kept⟩ := List.filter_eq_append_iff.mp last
  obtain ⟨lead, _, rfl, _, shown, kept⟩ := List.filter_eq_cons_iff.mp kept
  obtain ⟨gap, rest, rfl, between, shown', kept⟩ := List.filter_eq_cons_iff.mp kept
  have behind := List.filter_eq_nil_iff.mp kept
  refine ⟨start ++ lead, gap, rest, (List.append_assoc ..).symm, by simpa using shown,
    by simpa using shown', ?_⟩
  intro t member
  simpa using (List.mem_append.mp member).elim (between t) (behind t)

/-- Right behind the parenthesis of a call the search for a name finds that of the call. -/
theorem name_of_isAfter (after : isAfter tokens i [[.identifier, .COUNT], [.lParen]] = true) :
    ∃ front name paren, preceding tokens i = front ++ [name, paren] ∧
      OpensCall tokens i name paren ∧
      lastBefore? tokens i [.identifier, .COUNT] = some name := by
  have apart : ∀ others ∈ [[TokenKind.lParen]], [.identifier, .COUNT].Disjoint others := by
    simp [List.Disjoint]
  obtain ⟨before, name, ts, last, named, fit, found⟩ := lastBefore_of_isAfter after apart
  obtain ⟨paren, _, opened, nothing, rfl⟩ := List.forall₂_cons_left_iff.mp fit
  cases nothing
  obtain ⟨front, gap, rest, row, shown, shown', hidden⟩ := exists_gaps last
  exact ⟨before, name, paren, last, ⟨front, gap, rest, row, ⟨shown, named⟩,
    ⟨shown', List.mem_singleton.mp opened⟩, hidden⟩, found⟩

end Calls

end Lookaround

namespace Completion

variable {ctx : CompletionContext}

/-- An argument is suggested only right behind the parenthesis of a call. -/
theorem isAfter_of_ofField {starts : Bool} {rule : Rule}
    (site : Site.ofField? ctx starts rule = some .selectFunctionArgument) :
    Lookaround.isAfter ctx.tokens ctx.cursor [[.identifier, .COUNT], [.lParen]] = true := by
  rw [Site.ofField?.eq_def] at site
  split at site
  · cases site
  · split at site
    · cases site
    · split at site
      · assumption
      · cases site
  · split at site <;> cases site
  · cases site
  · cases site

theorem isAfter_of_ofCandidate {c : RuleCandidate}
    (site : Site.ofCandidate? ctx c = some .selectFunctionArgument) :
    Lookaround.isAfter ctx.tokens ctx.cursor [[.identifier, .COUNT], [.lParen]] = true := by
  simp only [Site.ofCandidate?] at site
  split at site
  · split at site <;> cases site
  · split at site <;> cases site
  · obtain ⟨rule, _, site⟩ := Option.bind_eq_some_iff.mp site
    exact isAfter_of_ofField site
  · split at site <;> cases site
  · split at site <;> cases site
  · split at site <;> cases site
  · cases site

theorem argumentHint_eq {name : Token}
    (found : Lookaround.lastBefore? ctx.tokens ctx.cursor [.identifier, .COUNT] = some name) :
    argumentHint ctx = { Hint.forObject ctx.objectName with
      onlyAggregatable := (QueryFunction.ofName? name.text).map (·.isAggregate)
      onlyTypes := (QueryFunction.ofName? name.text).bind (·.types) } := by
  simp only [argumentHint, Site.functionNames, found, Option.bind_some]
  cases QueryFunction.ofName? name.text with
  | none => rfl
  | some f => rfl

end Completion

open Lookaround Completion

/-- Looking around compares a pattern with the adjacent visible tokens and nothing else: looking
back, with the last ones before the position, and looking ahead, with the first ones from it on. The
two are mirror images. Right behind the parenthesis of a call the search for a name finds the token
that the first alternative was compared with, and an argument is suggested only there and only for
the function of that name. -/
theorem adjacent_visible_tokens (tokens : TokenStream) (i : Nat)
    (pattern : List (List TokenKind)) :
    let before := (tokens.toList.take (min i tokens.size)).filter (!·.isHidden)
    let behind := (tokens.toList.drop i).filter (!·.isHidden)
    (isAfter tokens i pattern = true ↔ pattern.length ≤ before.length ∧
        Matches pattern (before.drop (before.length - pattern.length))) ∧
      (isBefore tokens i pattern = true ↔ pattern.length ≤ behind.length ∧
        Matches pattern (behind.take pattern.length)) ∧
      (i ≤ tokens.size →
        isAfter tokens i pattern = isBefore tokens.reverse (tokens.size - i) pattern.reverse) ∧
      (isAfter tokens i [[.identifier, .COUNT], [.lParen]] = true →
        ∃ name paren, before.drop (before.length - 2) = [name, paren] ∧
          OpensCall tokens i name paren ∧
          lastBefore? tokens i [.identifier, .COUNT] = some name) ∧
      ∀ (ctx : CompletionContext) (c : RuleCandidate),
        Site.ofCandidate? ctx c = some .selectFunctionArgument →
        ∃ name paren, OpensCall ctx.tokens ctx.cursor name paren ∧
          lastBefore? ctx.tokens ctx.cursor [.identifier, .COUNT] = some name ∧
          Site.selectFunctionArgument.items ctx =
            [fieldsWith { Hint.forObject ctx.objectName with
              onlyAggregatable := (QueryFunction.ofName? name.text).map (·.isAggregate)
              onlyTypes := (QueryFunction.ofName? name.text).bind (·.types) }] := by
  intro before behind
  refine ⟨isAfter_iff, isBefore_iff, fun inside => isAfter_eq_isBefore inside pattern, ?_, ?_⟩
  · intro after
    obtain ⟨front, name, paren, split, opened, found⟩ := name_of_isAfter after
    refine ⟨name, paren, ?_, opened, found⟩
    have last : before = front ++ [name, paren] := split
    rw [last, List.length_append]
    exact List.drop_left
  · intro ctx c site
    obtain ⟨_, name, paren, _, opened, found⟩ := name_of_isAfter (isAfter_of_ofCandidate site)
    refine ⟨name, paren, opened, found, ?_⟩
    rw [Site.items, argumentHint_eq found]

/-- A select list that breaks off in its second call, with a comment before the parenthesis. -/
def openSum : String := "SELECT MAX(Amount), SUM /* all */ ( "

theorem adjacent_visible_tokens_openSum :
    let tokens := (parse openSum).tokens
    let ctx := CompletionContext.ofPosition (.ofParsed (parse openSum)) 14 "Object"
    let call : List (List TokenKind) := [[.identifier, .COUNT], [.lParen]]
    let column : RuleCandidate := ⟨.field, [.query, .selectExprs, .selectExpr], 8⟩
    let name : Token := ⟨.identifier, "SUM", 8, 1, 20, .visible⟩
    let paren : Token := ⟨.lParen, "(", 12, 1, 34, .visible⟩
    (14 ≤ tokens.size ∧ isAfter tokens 14 call = true ∧
        Site.ofCandidate? ctx column = some .selectFunctionArgument) ∧
      Matches call [name, paren] ∧
      isBefore tokens.reverse (tokens.size - 14) call.reverse = true ∧
      lastBefore? tokens 14 [.identifier, .COUNT] = some name ∧
      Site.selectFunctionArgument.items ctx = [fieldsWith { Hint.forObject "Object" with
        onlyAggregatable := some true
        onlyTypes := some FieldType.numeric }] := by
  intro tokens ctx call column name paren
  have inside : 14 ≤ tokens.size := by decide +kernel
  have after : isAfter tokens 14 call = true := by decide +kernel
  have site : Site.ofCandidate? ctx column = some .selectFunctionArgument := by decide +kernel
  have shown : (preceding tokens 14).drop ((preceding tokens 14).length - 2) = [name, paren] := by
    decide +kernel
  obtain ⟨back, _, mirror, search, restricts⟩ := adjacent_visible_tokens tokens 14 call
  have fit : Matches call ((preceding tokens 14).drop ((preceding tokens 14).length - 2)) :=
    (back.mp after).2
  obtain ⟨_, _, last, _, found⟩ := search after
  obtain ⟨rfl, _⟩ := List.cons.inj (last.symm.trans shown)
  obtain ⟨_, _, _, found', items⟩ := restricts ctx column site
  obtain rfl := Option.some.inj (found'.symm.trans found)
  have catalogued : QueryFunction.ofName? "SUM" = some
      (.aggregate "SUM" (some FieldType.numeric) "Total sum of a numeric field") := by
    decide +kernel
  have object : ctx.objectName = "Object" := by decide +kernel
  rw [catalogued, object] at items
  exact ⟨⟨inside, after, site⟩, shown ▸ fit, (mirror inside).symm.trans after, found, items⟩

end SoqlAssist
