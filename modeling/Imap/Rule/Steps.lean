import Imap.Rule.Token

/-!
# Runs of steps

A composite value can also be read step by step from a cursor that remembers where it stands. A step
either passes over a fixed word or applies a rule. After the first failing step the cursor stays
where that step began, every later step is skipped, and the failure is kept for the end. This is the
same reading as the chain of rules that threads the rest through and stops at the first failure;
both forms are given here.
-/

namespace Imap

/-- One step of a run: a fixed word without a value, or a rule with one. -/
inductive Step (α : Type) where
  | expect (literal : Bytes)
  | apply (rule : Rule α)

/-- The place a run of steps has reached, and the failure that ended it. -/
structure Cursor where
  rest : Bytes
  failure? : Option Failure
deriving DecidableEq, Repr

variable {α β : Type}

/-- The rule a step runs; a word gives no value. -/
def Step.rule : Step α → Rule (Option α)
  | .expect literal => Rule.keyword literal none
  | .apply rule => some <$> rule

namespace Cursor

/-- The cursor before the first step. -/
def start (input : Bytes) : Cursor where
  rest := input
  failure? := none

/-- Holds while no step has failed. -/
def isOk (cursor : Cursor) : Bool :=
  cursor.failure?.isNone

/-- The failure to report: that of the failing step, malformed if there is none. -/
def failure (cursor : Cursor) : Failure :=
  cursor.failure?.getD .malformed

/-- Runs one step, unless an earlier one has failed. -/
def advance (cursor : Cursor) (step : Step α) : Cursor × Option α :=
  match cursor.failure? with
  | some _ => (cursor, none)
  | none =>
    match step.rule.run cursor.rest with
    | .matched value rest => ({ rest := rest, failure? := none }, value)
    | .failed failure => ({ rest := cursor.rest, failure? := some failure }, none)

/-- Runs the steps in order and gives the value of each. -/
def advanceAll (cursor : Cursor) : List (Step α) → Cursor × List (Option α)
  | [] => (cursor, [])
  | step :: steps =>
    let (next, value) := cursor.advance step
    let (last, values) := next.advanceAll steps
    (last, value :: values)

/-- The outcome of a run whose value is given: the failure kept, or the value with what is left. -/
def finish (cursor : Cursor) (value : β) : Outcome β :=
  match cursor.failure? with
  | some failure => .failed failure
  | none => .matched value cursor.rest

theorem advance_suffix (cursor : Cursor) (step : Step α) :
    (cursor.advance step).1.rest <:+ cursor.rest := by
  unfold advance
  split
  · exact List.suffix_refl _
  · split
    · rename_i value rest stepMatch
      exact step.rule.rest_suffix stepMatch
    · exact List.suffix_refl _

theorem advanceAll_suffix (cursor : Cursor) (steps : List (Step α)) :
    (cursor.advanceAll steps).1.rest <:+ cursor.rest := by
  induction steps generalizing cursor with
  | nil => exact List.suffix_refl _
  | cons step steps inductionHypothesis =>
    exact (inductionHypothesis _).trans (cursor.advance_suffix step)

end Cursor

namespace Rule

/-- Reads the values of the steps with a cursor. -/
def ofSteps (steps : List (Step α)) : Rule (List α) where
  run input :=
    let (cursor, values) := (Cursor.start input).advanceAll steps
    cursor.finish (values.filterMap id)
  rest_suffix := by
    intro input rest values equality
    simp only [Cursor.finish] at equality
    split at equality
    · cases equality
    · cases equality
      exact (Cursor.start input).advanceAll_suffix steps

/-- Reads the values of the steps as a chain of rules. -/
def chain : List (Step α) → Rule (List α)
  | [] => pure []
  | .expect literal :: steps => do
    expect literal
    chain steps
  | .apply rule :: steps => do
    let value ← rule
    let values ← chain steps
    pure (value :: values)

end Rule

end Imap
