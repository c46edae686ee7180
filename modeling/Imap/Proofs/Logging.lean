import Mathlib.Data.List.Infix
import Imap.Log.Logger

/-!
# The level and the trace switch

A logger emits regular messages and protocol traces to one sink. The level decides about the
messages, the switch decides about the traces, and neither has a say in the other. Two descriptions
of a run make this precise. One reads the calls of the run: which of them emit something, and where
to, follows from what the operations before them have set. The other compares two runs: what belongs
to one kind of entry may be deleted from a run, and the entries of the other kind stay as they are.
-/

namespace Imap.Log

/-! ## What operations set -/

namespace Operation

/-- The level that the operation sets. -/
def level? : Operation → Option Level
  | .setLevel level => some level
  | _ => none

/-- The position in which the operation puts the trace switch. -/
def tracing? : Operation → Option Bool
  | .setTracing enabled => some enabled
  | _ => none

/-- The sink that the operation installs. -/
def sink? : Operation → Option Sink
  | .setHandler number => some (.handler number)
  | .clearHandler => some .standardError
  | _ => none

/-- Holds for the operations that only regular messages depend on. -/
def isAboutMessages : Operation → Bool
  | .setLevel _ => true
  | .log _ _ => true
  | _ => false

/-- Holds for the operations that only traces depend on. -/
def isAboutTraces : Operation → Bool
  | .setTracing _ => true
  | .trace _ => true
  | _ => false

end Operation

/-- What the operations have set last, or the first setting if they have set nothing. -/
def lastSet {α : Type} (set? : Operation → Option α) (first : α) (operations : List Operation) :
    α :=
  (operations.filterMap set?).getLastD first

theorem lastSet_cons {α : Type} (set? : Operation → Option α) (first : α) (operation : Operation)
    (operations : List Operation) :
    lastSet set? first (operation :: operations) =
      lastSet set? ((set? operation).getD first) operations := by
  unfold lastSet
  cases isSet : set? operation with
  | none =>
    rw [List.filterMap_cons_none isSet]
    rfl
  | some setting =>
    rw [List.filterMap_cons_some isSet, List.getLastD_cons]
    rfl

/-- The operations of a run, each behind the operations before it. -/
def moments (operations : List Operation) : List (List Operation × Operation) :=
  operations.inits.zip operations

theorem moments_cons (operation : Operation) (operations : List Operation) :
    moments (operation :: operations) =
      ([], operation) :: (moments operations).map fun (earlier, called) =>
        (operation :: earlier, called) := by
  simp only [moments, List.inits_cons, List.zip_cons_cons, List.zip_map_left]
  rfl

namespace Emission

/-- Holds for the entries of protocol traces. -/
def isTrace (emission : Emission) : Bool :=
  emission.entry.trace?.isSome

/-- Holds for the entries of regular messages. -/
def isMessage (emission : Emission) : Bool :=
  !emission.isTrace

end Emission

namespace Logger

/-! ## Runs by their moments -/

theorem step_settings (logger : Logger) (operation : Operation) :
    (logger.step operation).1 = {
      level := operation.level?.getD logger.level
      tracing := operation.tracing?.getD logger.tracing
      sink := operation.sink?.getD logger.sink } := by
  cases operation <;> rfl

theorem run_settings (logger : Logger) (operations : List Operation) :
    (logger.run operations).1 = {
      level := lastSet Operation.level? logger.level operations
      tracing := lastSet Operation.tracing? logger.tracing operations
      sink := lastSet Operation.sink? logger.sink operations } := by
  induction operations generalizing logger with
  | nil => rfl
  | cons operation operations inductionHypothesis =>
    change ((logger.step operation).1.run operations).1 = _
    rw [inductionHypothesis, step_settings]
    simp only [lastSet_cons]

/-- A run emits what its operations emit, each in the settings that those before it have left. -/
theorem run_emissions (logger : Logger) (operations : List Operation) :
    (logger.run operations).2 = (moments operations).flatMap fun (earlier, called) =>
      ((logger.run earlier).1.step called).2 := by
  induction operations generalizing logger with
  | nil => rfl
  | cons operation operations inductionHypothesis =>
    change (logger.step operation).2 ++ ((logger.step operation).1.run operations).2 = _
    rw [inductionHypothesis, moments_cons, List.flatMap_cons, List.flatMap_map]
    rfl

/-- The calls of a run that emit a regular message: the log calls at the level set last or above
it. Each message goes to the sink installed last. -/
def messageCall? (logger : Logger) : List Operation × Operation → Option Emission
  | (earlier, .log level message) =>
    if (lastSet Operation.level? logger.level earlier).number.toNat ≤ level.number.toNat then
      some {
        sink := lastSet Operation.sink? logger.sink earlier
        entry := { level := level, message := message, trace? := none } }
    else none
  | _ => none

/-- The calls of a run that emit a trace: the trace calls made while the switch was set last to on.
Each trace has the lowest level, and it goes to the sink installed last. -/
def traceCall? (logger : Logger) : List Operation × Operation → Option Emission
  | (earlier, .trace payload) =>
    if lastSet Operation.tracing? logger.tracing earlier = true then
      some {
        sink := lastSet Operation.sink? logger.sink earlier
        entry := { level := .trace, message := [], trace? := some payload } }
    else none
  | _ => none

theorem filter_isMessage_trace (logger : Logger) (payload : Trace) :
    (logger.trace payload).filter Emission.isMessage = [] := by
  unfold trace
  split <;> rfl

theorem filter_isTrace_log (logger : Logger) (level : Level) (message : Bytes) :
    (logger.log level message).filter Emission.isTrace = [] := by
  unfold log
  split <;> rfl

theorem filter_isMessage_step (logger : Logger) (earlier : List Operation)
    (called : Operation) :
    ((logger.run earlier).1.step called).2.filter Emission.isMessage =
      (logger.messageCall? (earlier, called)).toList := by
  rw [run_settings]
  cases called with
  | log level message =>
    simp only [step, log, isEnabled, messageCall?, UInt8.le_iff_toNat_le, decide_eq_true_eq]
    split <;> rfl
  | trace payload => exact filter_isMessage_trace _ payload
  | _ => rfl

theorem filter_isTrace_step (logger : Logger) (earlier : List Operation) (called : Operation) :
    ((logger.run earlier).1.step called).2.filter Emission.isTrace =
      (logger.traceCall? (earlier, called)).toList := by
  rw [run_settings]
  cases called with
  | log level message => exact filter_isTrace_log _ level message
  | trace payload =>
    simp only [step, trace, traceCall?]
    split <;> rfl
  | _ => rfl

/-- What a run shows is read off its moments if what each step shows is. -/
theorem filter_run_eq_filterMap {logger : Logger} {shown : Emission → Bool}
    {call? : List Operation × Operation → Option Emission}
    (steps : ∀ earlier called,
      ((logger.run earlier).1.step called).2.filter shown = (call? (earlier, called)).toList)
    (operations : List Operation) :
    (logger.run operations).2.filter shown = (moments operations).filterMap call? := by
  rw [run_emissions, List.filter_flatMap, List.filterMap_eq_flatMap_toList]
  apply List.flatMap_congr
  intro moment _
  exact steps moment.1 moment.2

/-! ## Two runs -/

/-- The hidden operations have no say in the shown emissions. These depend on a part of the settings
that no hidden operation touches. -/
structure Ignores {α : Type} (hidden : Operation → Bool) (shown : Emission → Bool)
    (view : Logger → α) : Prop where
  hidden_view : ∀ (logger : Logger) (operation : Operation), hidden operation = true →
    view (logger.step operation).1 = view logger
  hidden_emits : ∀ (logger : Logger) (operation : Operation), hidden operation = true →
    (logger.step operation).2.filter shown = []
  step_view : ∀ {left right : Logger}, view left = view right → ∀ operation,
    view (left.step operation).1 = view (right.step operation).1
  step_emits : ∀ {left right : Logger}, view left = view right → ∀ operation,
    (left.step operation).2.filter shown = (right.step operation).2.filter shown

/-- Deleting hidden operations from a run leaves its shown emissions as they are. The two runs are
in different settings at each moment, but in the same view of them. -/
theorem Ignores.filter_run {α : Type} {hidden : Operation → Bool} {shown : Emission → Bool}
    {view : Logger → α} (ignores : Ignores hidden shown view) {left right : Logger}
    (alike : view left = view right) (operations : List Operation) :
    (left.run (operations.filter fun operation => !hidden operation)).2.filter shown =
      (right.run operations).2.filter shown := by
  induction operations generalizing left right with
  | nil => rfl
  | cons operation operations inductionHypothesis =>
    have runCons : (right.run (operation :: operations)).2.filter shown =
        (right.step operation).2.filter shown ++
          ((right.step operation).1.run operations).2.filter shown :=
      List.filter_append _ _
    rw [runCons]
    by_cases isHidden : hidden operation = true
    · have stillAlike : view left = view (right.step operation).1 :=
        alike.trans (ignores.hidden_view right operation isHidden).symm
      rw [List.filter_cons_of_neg (by simp [isHidden]), ignores.hidden_emits right operation isHidden]
      exact inductionHypothesis stillAlike
    · have stillAlike := ignores.step_view alike operation
      rw [List.filter_cons_of_pos (by simp [isHidden]), ← ignores.step_emits alike operation,
        ← inductionHypothesis stillAlike]
      exact List.filter_append _ _

/-- Regular messages see the level and the sink. -/
theorem ignores_isAboutTraces :
    Ignores Operation.isAboutTraces Emission.isMessage fun logger =>
      (logger.level, logger.sink) where
  hidden_view := by
    intro logger operation isHidden
    cases operation with
    | setTracing enabled => rfl
    | trace payload => rfl
    | _ => cases isHidden
  hidden_emits := by
    intro logger operation isHidden
    cases operation with
    | setTracing enabled => rfl
    | trace payload => exact filter_isMessage_trace logger payload
    | _ => cases isHidden
  step_view := by
    intro left right alike operation
    obtain ⟨sameLevel, sameSink⟩ := Prod.mk.inj alike
    rw [step_settings, step_settings, sameLevel, sameSink]
  step_emits := by
    intro left right alike operation
    obtain ⟨sameLevel, sameSink⟩ := Prod.mk.inj alike
    cases operation with
    | log level message =>
      have sameEmissions : left.log level message = right.log level message := by
        unfold log isEnabled dispatch
        rw [sameLevel, sameSink]
      exact congrArg (List.filter Emission.isMessage) sameEmissions
    | trace payload =>
      exact (filter_isMessage_trace left payload).trans (filter_isMessage_trace right payload).symm
    | _ => rfl

/-- Traces see the switch and the sink. -/
theorem ignores_isAboutMessages :
    Ignores Operation.isAboutMessages Emission.isTrace fun logger =>
      (logger.tracing, logger.sink) where
  hidden_view := by
    intro logger operation isHidden
    cases operation with
    | setLevel level => rfl
    | log level message => rfl
    | _ => cases isHidden
  hidden_emits := by
    intro logger operation isHidden
    cases operation with
    | setLevel level => rfl
    | log level message => exact filter_isTrace_log logger level message
    | _ => cases isHidden
  step_view := by
    intro left right alike operation
    obtain ⟨sameSwitch, sameSink⟩ := Prod.mk.inj alike
    rw [step_settings, step_settings, sameSwitch, sameSink]
  step_emits := by
    intro left right alike operation
    obtain ⟨sameSwitch, sameSink⟩ := Prod.mk.inj alike
    cases operation with
    | log level message =>
      exact (filter_isTrace_log left level message).trans
        (filter_isTrace_log right level message).symm
    | trace payload =>
      have sameEmissions : left.trace payload = right.trace payload := by
        unfold trace dispatch
        rw [sameSwitch, sameSink]
      exact congrArg (List.filter Emission.isTrace) sameEmissions
    | _ => rfl

/-- A run from level info with traces off, to any sink, emits the messages that the level lets
through and the traces called for while the switch is on, in the order of the calls. Without its
operations on traces it emits the same messages to the same sinks, and without its operations on
messages the same traces. -/
theorem run_filters_apart (sink : Sink) (operations : List Operation) :
    let logger : Logger := { level := .info, tracing := false, sink := sink }
    (logger.run operations).2.filter Emission.isMessage =
      (moments operations).filterMap logger.messageCall? ∧
    (logger.run operations).2.filter Emission.isTrace =
      (moments operations).filterMap logger.traceCall? ∧
    (logger.run (operations.filter fun operation => !operation.isAboutTraces)).2.filter
        Emission.isMessage =
      (logger.run operations).2.filter Emission.isMessage ∧
    (logger.run (operations.filter fun operation => !operation.isAboutMessages)).2.filter
        Emission.isTrace =
      (logger.run operations).2.filter Emission.isTrace := by
  intro logger
  refine ⟨?_, ?_, ?_, ?_⟩
  · exact filter_run_eq_filterMap (filter_isMessage_step logger) operations
  · exact filter_run_eq_filterMap (filter_isTrace_step logger) operations
  · exact ignores_isAboutTraces.filter_run rfl operations
  · exact ignores_isAboutMessages.filter_run rfl operations

end Logger

end Imap.Log
