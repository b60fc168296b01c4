import SoqlAssist.Proofs.Completion.Keyword

/-!
What completion takes from a predictor. It asks one question, and of the answer it sees the leading
candidates only: those of a kind that the settings admit and that no earlier candidate has. So a
predictor that disregards the settings, repeats itself or adds what is not admitted is no different
from one that does not.
-/
namespace SoqlAssist

namespace Candidates

section FirstOfEach

variable {α κ : Type} [DecidableEq κ] (key : α → κ)

/-- The elements before which no other has the same key, in order. -/
def firsts (xs : List α) : List α :=
  (xs.zipIdx.filter fun (x, i) => key x ∉ (xs.take i).map key).map (·.1)

/-- The keys that have been seen are those of all elements so far, those left out included. -/
theorem firstOfEach_behind {seen : List κ} (before : List α)
    (known : ∀ k, k ∈ seen ↔ k ∈ before.map key) (xs : List α) :
    firstOfEach key seen xs = ((xs.zipIdx before.length).filter fun (x, i) =>
      key x ∉ ((before ++ xs).take i).map key).map (·.1) := by
  induction xs generalizing seen before with
  | nil => rfl
  | cons x xs ih =>
    have split : before ++ x :: xs = before ++ [x] ++ xs := List.append_cons ..
    have length : before.length + 1 = (before ++ [x]).length := by simp
    have first : (before ++ x :: xs).take before.length = before := List.take_left
    rw [firstOfEach, List.zipIdx_cons, length]
    by_cases repeated : key x ∈ seen
    · have known' : ∀ k, k ∈ seen ↔ k ∈ (before ++ [x]).map key := by
        intro k
        rw [List.map_append, List.mem_append, ← known, List.map_singleton, List.mem_singleton]
        exact ⟨.inl, fun later => later.elim id fun same => same ▸ repeated⟩
      have dropped : ¬ key x ∉ ((before ++ x :: xs).take before.length).map key := by
        rw [first, ← known]
        exact not_not.mpr repeated
      rw [if_pos repeated, ih (before ++ [x]) known',
        List.filter_cons_of_neg (by simpa using dropped), split]
    · have known' : ∀ k, k ∈ key x :: seen ↔ k ∈ (before ++ [x]).map key := by
        intro k
        rw [List.map_append, List.mem_append, ← known, List.map_singleton, List.mem_singleton,
          List.mem_cons, or_comm]
      have kept : key x ∉ ((before ++ x :: xs).take before.length).map key := by
        rw [first, ← known]
        exact repeated
      rw [if_neg repeated, ih (before ++ [x]) known', List.filter_cons_of_pos (by simpa using kept),
        List.map_cons, split]

theorem firstOfEach_eq_firsts (xs : List α) : firstOfEach key [] xs = firsts key xs := by
  rw [firstOfEach_behind key [] (by simp)]
  rfl

theorem firstOfEach_sublist (seen : List κ) (xs : List α) :
    (firstOfEach key seen xs).Sublist xs := by
  induction xs generalizing seen with
  | nil => exact List.Sublist.refl _
  | cons x xs ih =>
    rw [firstOfEach]
    split
    · exact (ih seen).cons x
    · exact (ih _).cons_cons x

theorem firstOfEach_eq_self {seen : List κ} {xs : List α} (fresh : ∀ x ∈ xs, key x ∉ seen)
    (apart : xs.Pairwise (key · ≠ key ·)) : firstOfEach key seen xs = xs := by
  induction xs generalizing seen with
  | nil => rfl
  | cons x xs ih =>
    obtain ⟨other, apart⟩ := List.pairwise_cons.mp apart
    rw [firstOfEach, if_neg (fresh x List.mem_cons_self), ih ?_ apart]
    intro y member
    rw [List.mem_cons, not_or]
    exact ⟨(other y member).symm, fresh y (List.mem_cons_of_mem x member)⟩

variable (admits : α → Bool)

theorem admitted_of_mem {xs : List α} {x : α}
    (member : x ∈ firstOfEach key [] (xs.filter admits)) : admits x = true :=
  (List.mem_filter.mp ((firstOfEach_sublist ..).subset member)).2

/-- What is admitted and the first of its kind is so among its like. -/
theorem firstOfEach_again (xs : List α) :
    firstOfEach key [] ((firstOfEach key [] (xs.filter admits)).filter admits) =
      firstOfEach key [] (xs.filter admits) := by
  have admitted : (firstOfEach key [] (xs.filter admits)).filter admits =
      firstOfEach key [] (xs.filter admits) := by
    apply List.filter_eq_self.mpr
    intro x member
    exact admitted_of_mem key admits member
  rw [admitted]
  apply firstOfEach_eq_self
  · intro x _
    exact List.not_mem_nil
  · exact (pairwise_firstOfEach ..).2

theorem nodup_firstOfEach (xs : List α) : ((firstOfEach key [] xs).map key).Nodup := by
  apply List.pairwise_map.mpr
  exact (pairwise_firstOfEach ..).2

end FirstOfEach

variable (settings : Settings) (c : Candidates)

def leading : Candidates where
  tokens := firsts (·.kind) (c.tokens.filter fun t => !settings.ignoredTokens t.kind)
  rules := firsts (·.rule) (c.rules.filter fun r => settings.preferredRules r.rule)

theorem admissible_eq_leading : c.admissible settings = c.leading settings := by
  rw [admissible, firstOfEach_eq_firsts, firstOfEach_eq_firsts, leading]

theorem admissible_admissible :
    (c.admissible settings).admissible settings = c.admissible settings := by
  rw [admissible, admissible, firstOfEach_again, firstOfEach_again]

end Candidates

/-- The question that is asked to complete a document at a cursor. None is asked where there is no
such place. -/
structure Prediction.Issued (settings : Settings) (text : String) (cursor : Cursor)
    (request : Prediction) : Prop where
  line : cursor.line ≠ 0
  column : cursor.column ≠ 0
  query : request.query = parse (Document.ofText text).padded
  resolved : cursor.resolve request.query.tokens = .ok request.cursor
  settings : request.settings = settings

open Candidates

/-- An engine asks one question, and of the answer it sees the leading candidates only. -/
theorem CompletionEngine.complete_congr {settings : Settings} {p q : Predictor} {text : String}
    {cursor : Cursor}
    (agree : ∀ request, Prediction.Issued settings text cursor request →
      (p request).admissible settings = (q request).admissible settings) :
    CompletionEngine.complete ⟨p, settings⟩ text cursor =
      CompletionEngine.complete ⟨q, settings⟩ text cursor := by
  rw [complete, complete]
  split
  · rfl
  rename_i valid
  obtain ⟨line, column⟩ := not_or.mp valid
  dsimp only
  split
  · rfl
  rename_i position resolved
  rw [collect, collect, agree _ ⟨line, column, rfl, resolved, rfl⟩]

/-- Two predictors of which the leading candidates agree in the answers to the question that is
asked lead to the same completion. What is handed on are the leading candidates: none that the
settings do not admit, no two of a kind, and the same if it is collected again. -/
theorem complete_from_leading (settings : Settings) :
    (∀ (p q : Predictor) (text : String) (cursor : Cursor),
      (∀ request, Prediction.Issued settings text cursor request →
        (p request).leading settings = (q request).leading settings) →
      CompletionEngine.complete ⟨p, settings⟩ text cursor =
        CompletionEngine.complete ⟨q, settings⟩ text cursor) ∧
    ∀ (predict : Predictor) (query : ParsedQuery) (position : Nat),
      let kept := collect predict query position settings
      kept = (predict ⟨query, position, settings⟩).leading settings ∧
        (∀ t ∈ kept.tokens, settings.ignoredTokens t.kind = false) ∧
        (∀ r ∈ kept.rules, settings.preferredRules r.rule = true) ∧
        (kept.tokens.map (·.kind)).Nodup ∧ (kept.rules.map (·.rule)).Nodup ∧
        ∀ query' position', collect (fun _ => kept) query' position' settings = kept := by
  constructor
  · intro p q text cursor agree
    apply CompletionEngine.complete_congr
    intro request issued
    rw [admissible_eq_leading, admissible_eq_leading, agree request issued]
  · intro predict query position
    refine ⟨admissible_eq_leading .., ?_, ?_, nodup_firstOfEach .., nodup_firstOfEach .., ?_⟩
    · intro t member
      have admitted := admitted_of_mem _ _ member
      rwa [Bool.not_eq_true'] at admitted
    · intro r member
      exact admitted_of_mem RuleCandidate.rule (fun r => settings.preferredRules r.rule) member
    · intro query' position'
      exact admissible_admissible ..

/-- An answer with `WHERE` twice, commas around that the settings ignore, and fields twice, with a
rule between that they do not prefer. -/
def repetitiveAnswer : Candidates :=
  ⟨[⟨.comma, []⟩, ⟨.WHERE, []⟩, ⟨.comma, [.FROM]⟩, ⟨.WHERE, [.NOT]⟩],
    [⟨.field, [.query], 0⟩, ⟨.whereExpr, [], 0⟩, ⟨.field, [], 7⟩]⟩

def conciseAnswer : Candidates :=
  ⟨[⟨.WHERE, []⟩], [⟨.field, [.query], 0⟩]⟩

/-- Repetitions and what the settings do not admit make no difference. -/
theorem complete_from_leading_repetitiveAnswer :
    let text := "SELECT Id FROM Account "
    let cursor : Cursor := ⟨1, 24⟩
    (∃ request, Prediction.Issued .default text cursor request) ∧
      repetitiveAnswer.leading .default = conciseAnswer.leading .default ∧
      repetitiveAnswer ≠ conciseAnswer ∧
      CompletionEngine.complete ⟨fun _ => repetitiveAnswer, .default⟩ text cursor =
        CompletionEngine.complete ⟨fun _ => conciseAnswer, .default⟩ text cursor := by
  intro text cursor
  have resolved : cursor.resolve (parse (Document.ofText text).padded).tokens = .ok 8 := by
    decide +kernel
  have agree : repetitiveAnswer.leading .default = conciseAnswer.leading .default := by
    decide +kernel
  refine ⟨⟨⟨_, 8, .default⟩, by decide, by decide, rfl, resolved, rfl⟩, agree, by decide, ?_⟩
  exact (complete_from_leading .default).1 _ _ text cursor fun _ _ => agree

end SoqlAssist
