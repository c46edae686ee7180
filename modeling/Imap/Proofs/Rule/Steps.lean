import Imap.Proofs.Rule.Stability
import Imap.Rule.Steps

/-!
# Cursors and chains

A cursor is asked for one step after the other, also after a step has failed; a chain of rules ends
at the first failure. Both read the same. The steps up to a failure pass, each on what the one before
it has left. The cursor then stays in front of the failing step with the failure of that step,
whatever else is asked of it. So the values it has given are all there exactly if it is still
going, and one look at the end is enough. The values of a run are of one type; where its rules give
values of several types, that is their sum.
-/

namespace Imap

variable {α : Type}

namespace Step

/-! ## Steps that pass -/

/-- The step passes: its word stands in front and yields nothing, or its rule matches and yields the
value. -/
def Passes (step : Step α) (input : Bytes) (yield : Option α) (rest : Bytes) : Prop :=
  match step with
  | .expect literal => (Rule.word literal).run input = .matched literal rest ∧ yield = none
  | .apply rule => ∃ value, rule.run input = .matched value rest ∧ yield = some value

/-- The step fails on the input. -/
def Fails (step : Step α) (input : Bytes) (failure : Failure) : Prop :=
  match step with
  | .expect literal => (Rule.word literal).run input = .failed failure
  | .apply rule => rule.run input = .failed failure

/-- The steps pass one after the other, each on what the one before it has left. -/
inductive PassAll : Bytes → List (Step α) → List (Option α) → Bytes → Prop where
  | nil (input : Bytes) : PassAll input [] [] input
  | cons {step : Step α} {steps : List (Step α)} {input middle rest : Bytes} {yield : Option α}
      {yields : List (Option α)} (passes : step.Passes input yield middle)
      (later : PassAll middle steps yields rest) :
      PassAll input (step :: steps) (yield :: yields) rest

theorem run_rule_expect (literal input : Bytes) :
    (expect literal : Step α).rule.run input =
      ((Rule.word literal).run input).map fun _ => none := by
  change ((fun _ => none) <$> Rule.expect literal : Rule (Option α)).run input = _
  rw [Rule.run_map, Rule.run_expect]
  cases (Rule.word literal).run input <;> rfl

theorem run_rule_eq_matched_iff {step : Step α} {input rest : Bytes} {yield : Option α} :
    step.rule.run input = .matched yield rest ↔ step.Passes input yield rest := by
  cases step with
  | expect literal =>
    rw [run_rule_expect, Outcome.map_eq_matched_iff]
    constructor
    · rintro ⟨found, wordMatch, rfl⟩
      obtain ⟨rfl, -⟩ := Rule.run_word_eq_matched_iff.mp wordMatch
      exact ⟨wordMatch, rfl⟩
    · rintro ⟨wordMatch, rfl⟩
      exact ⟨literal, wordMatch, rfl⟩
  | apply rule =>
    change (some <$> rule).run input = _ ↔ _
    rw [Rule.run_map, Outcome.map_eq_matched_iff]
    exact exists_congr fun value => and_congr_right fun _ => eq_comm

theorem run_rule_eq_failed_iff {step : Step α} {input : Bytes} {failure : Failure} :
    step.rule.run input = .failed failure ↔ step.Fails input failure := by
  cases step with
  | expect literal =>
    rw [run_rule_expect, Outcome.map_eq_failed_iff]
    rfl
  | apply rule => exact Rule.run_map_eq_failed_iff

/-- Steps pass to the end, or there is a first one that fails. -/
theorem passAll_or_fails (input : Bytes) (steps : List (Step α)) :
    (∃ yields rest, PassAll input steps yields rest) ∨
    ∃ done failing skipped yields rest failure, done ++ failing :: skipped = steps ∧
      PassAll input done yields rest ∧ failing.Fails rest failure := by
  induction steps generalizing input with
  | nil => exact Or.inl ⟨[], input, .nil input⟩
  | cons step steps inductionHypothesis =>
    cases answer : step.rule.run input with
    | failed failure =>
      have fails := run_rule_eq_failed_iff.mp answer
      exact Or.inr ⟨[], step, steps, [], input, failure, rfl, .nil input, fails⟩
    | matched yield middle =>
      have passes := run_rule_eq_matched_iff.mp answer
      rcases inductionHypothesis middle with
        ⟨yields, rest, later⟩ | ⟨done, failing, skipped, yields, rest, failure, shape, later, fails⟩
      · exact Or.inl ⟨yield :: yields, rest, .cons passes later⟩
      · exact Or.inr ⟨step :: done, failing, skipped, yield :: yields, rest, failure,
          congrArg (step :: ·) shape, .cons passes later, fails⟩

end Step

namespace Cursor

open Step

/-! ## What a cursor does -/

theorem advance_of_passes {step : Step α} {input rest : Bytes} {yield : Option α}
    (passes : step.Passes input yield rest) :
    (start input).advance step = (start rest, yield) := by
  have stepMatch := run_rule_eq_matched_iff.mpr passes
  simp only [advance, start, stepMatch]

/-- The cursor in front of a step that has failed. -/
def stopped (rest : Bytes) (failure : Failure) : Cursor where
  rest := rest
  failure? := some failure

theorem advance_of_fails {step : Step α} {input : Bytes} {failure : Failure}
    (fails : step.Fails input failure) :
    (start input).advance step = (stopped input failure, none) := by
  have stepFailure := run_rule_eq_failed_iff.mpr fails
  simp only [advance, start, stepFailure, stopped]

theorem advanceAll_append (cursor : Cursor) (earlier later : List (Step α)) :
    cursor.advanceAll (earlier ++ later) =
      (((cursor.advanceAll earlier).1.advanceAll later).1,
        (cursor.advanceAll earlier).2 ++ ((cursor.advanceAll earlier).1.advanceAll later).2) := by
  induction earlier generalizing cursor with
  | nil => rfl
  | cons step earlier inductionHypothesis =>
    simp only [List.cons_append, advanceAll, inductionHypothesis]

/-- A cursor that has failed stays as it is and yields nothing. -/
theorem advanceAll_stopped (rest : Bytes) (failure : Failure) (steps : List (Step α)) :
    (stopped rest failure).advanceAll steps =
      (stopped rest failure, steps.map fun _ => none) := by
  induction steps with
  | nil => rfl
  | cons step steps inductionHypothesis =>
    have stays : (stopped rest failure).advance step = (stopped rest failure, none) := rfl
    simp only [advanceAll, stays, inductionHypothesis, List.map_cons]

theorem advanceAll_of_passAll {steps : List (Step α)} {input rest : Bytes}
    {yields : List (Option α)} (pass : PassAll input steps yields rest) :
    (start input).advanceAll steps = (start rest, yields) := by
  induction pass with
  | nil input => rfl
  | cons passes later inductionHypothesis =>
    simp only [advanceAll, advance_of_passes passes, inductionHypothesis]

theorem advanceAll_of_fails {done : List (Step α)} {failing : Step α} {input rest : Bytes}
    {yields : List (Option α)} {failure : Failure} (pass : PassAll input done yields rest)
    (fails : failing.Fails rest failure) (skipped : List (Step α)) :
    (start input).advanceAll (done ++ failing :: skipped) =
      (stopped rest failure, yields ++ (failing :: skipped).map fun _ => none) := by
  rw [advanceAll_append, advanceAll_of_passAll pass]
  simp only [advanceAll, advance_of_fails fails, advanceAll_stopped, List.map_cons]

end Cursor

/-! ## What a chain does -/

namespace Rule

open Step

theorem run_chain_cons_of_passes {step : Step α} {input middle : Bytes} {yield : Option α}
    (passes : step.Passes input yield middle) (steps : List (Step α)) :
    (chain (step :: steps)).run input = ((chain steps).run middle).map (yield.toList ++ ·) := by
  cases step with
  | expect literal =>
    obtain ⟨wordMatch, rfl⟩ := passes
    have expectMatch : (Rule.expect literal).run input = .matched () middle :=
      run_expect_eq_matched_iff.mpr (run_word_eq_matched_iff.mp wordMatch).2
    refine (run_bind_matched expectMatch _).trans ?_
    cases (chain steps).run middle <;> rfl
  | apply rule =>
    obtain ⟨value, ruleMatch, rfl⟩ := passes
    exact (run_bind_matched ruleMatch _).trans (run_map (value :: ·) (chain steps) middle)

theorem run_chain_cons_of_fails {step : Step α} {input : Bytes} {failure : Failure}
    (fails : step.Fails input failure) (steps : List (Step α)) :
    (chain (step :: steps)).run input = .failed failure := by
  cases step with
  | expect literal => exact run_bind_failed (run_expect_eq_failed_iff.mpr fails) _
  | apply rule => exact run_bind_failed fails _

theorem run_chain_of_passAll {steps : List (Step α)} {input rest : Bytes}
    {yields : List (Option α)} (pass : PassAll input steps yields rest) :
    (chain steps).run input = .matched (yields.filterMap id) rest := by
  induction pass with
  | nil input => rfl
  | @cons step steps input middle rest yield yields passes later inductionHypothesis =>
    rw [run_chain_cons_of_passes passes, inductionHypothesis]
    cases yield <;> rfl

theorem run_chain_of_fails {done : List (Step α)} {failing : Step α} {input rest : Bytes}
    {yields : List (Option α)} {failure : Failure} (pass : PassAll input done yields rest)
    (fails : failing.Fails rest failure) (skipped : List (Step α)) :
    (chain (done ++ failing :: skipped)).run input = .failed failure := by
  induction pass with
  | nil input => exact run_chain_cons_of_fails fails skipped
  | cons passes later inductionHypothesis =>
    rw [List.cons_append, run_chain_cons_of_passes passes, inductionHypothesis fails]
    rfl

/-- Reading with a cursor and reading with a chain is the same. -/
theorem ofSteps_eq_chain (steps : List (Step α)) : ofSteps steps = chain steps := by
  ext input
  rcases passAll_or_fails input steps with
    ⟨yields, rest, pass⟩ | ⟨done, failing, skipped, yields, rest, failure, rfl, pass, fails⟩
  · rw [run_chain_of_passAll pass]
    simp only [ofSteps, Cursor.advanceAll_of_passAll pass]
    rfl
  · rw [run_chain_of_fails pass fails skipped]
    simp only [ofSteps, Cursor.advanceAll_of_fails pass fails skipped]
    rfl

theorem stable_chain {steps : List (Step α)}
    (allStable : ∀ rule, Step.apply rule ∈ steps → rule.Stable) : (chain steps).Stable := by
  induction steps with
  | nil => exact stable_pure []
  | cons step steps inductionHypothesis =>
    have othersStable := inductionHypothesis fun rule member =>
      allStable rule (List.mem_cons_of_mem step member)
    cases step with
    | expect literal => exact (stable_expect literal).bind fun _ => othersStable
    | apply rule =>
      have ruleStable := allStable rule List.mem_cons_self
      exact ruleStable.bind fun value => othersStable.map (value :: ·)

theorem stable_ofSteps {steps : List (Step α)}
    (allStable : ∀ rule, Step.apply rule ∈ steps → rule.Stable) : (ofSteps steps).Stable := by
  rw [ofSteps_eq_chain]
  exact stable_chain allStable

end Rule

/-- A cursor that has been asked for some steps stands where the chain of these steps stands, and it
has yielded what the chain has read. If all have passed, it is still going, and it can be finished
with any value. If one has failed, it stands in front of the first such step with the failure of
that step; then it yields nothing more, it is not moved by any later steps, and it finishes with
that failure. -/
theorem Cursor.advanceAll_refines_chain (input : Bytes) (steps later : List (Step α)) :
    ∃ (cursor : Cursor) (yields : List (Option α)),
      (Cursor.start input).advanceAll steps = (cursor, yields) ∧
      ((∃ rest, Step.PassAll input steps yields rest ∧
          (Rule.chain steps).run input = .matched (yields.filterMap id) rest ∧
          cursor.isOk = true ∧ cursor.rest = rest ∧
          ∀ (β : Type) (value : β), cursor.finish value = .matched value rest) ∨
        ∃ done failing skipped passed rest failure, done ++ failing :: skipped = steps ∧
          Step.PassAll input done passed rest ∧ failing.Fails rest failure ∧
          (Rule.chain done).run input = .matched (passed.filterMap id) rest ∧
          (Rule.chain steps).run input = .failed failure ∧
          yields = passed ++ (failing :: skipped).map (fun _ => none) ∧
          cursor.isOk = false ∧ cursor.rest = rest ∧ cursor.failure = failure ∧
          (Cursor.start input).advanceAll (steps ++ later) =
            (cursor, yields ++ later.map fun _ => none) ∧
          ∀ (β : Type) (value : β), cursor.finish value = .failed failure) := by
  rcases Step.passAll_or_fails input steps with
    ⟨yields, rest, pass⟩ | ⟨done, failing, skipped, passed, rest, failure, rfl, pass, fails⟩
  · refine ⟨start rest, yields, advanceAll_of_passAll pass, Or.inl ⟨rest, pass, ?_⟩⟩
    exact ⟨Rule.run_chain_of_passAll pass, rfl, rfl, fun _ _ => rfl⟩
  · have stops := advanceAll_of_fails pass fails skipped
    refine ⟨stopped rest failure, _, stops, Or.inr ?_⟩
    refine ⟨done, failing, skipped, passed, rest, failure, rfl, pass, fails, ?_⟩
    refine ⟨Rule.run_chain_of_passAll pass, Rule.run_chain_of_fails pass fails skipped, rfl, rfl,
      rfl, rfl, ?_, fun _ _ => rfl⟩
    rw [advanceAll_append, stops, advanceAll_stopped]

end Imap
