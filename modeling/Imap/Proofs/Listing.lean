import Imap.Proofs.Framing
import Imap.Transcript

/-!
# Listing a transcript

The program is a loop that decodes, prints and drops the response in front of what is pending. It is
told here turn by turn, as a relation beside the function that gives the whole listing. The loop
ends because every turn but the last takes a response, and the listing it ends with depends on what
was printed before only through the lines printed and their number.

So transcripts may be joined. Behind a transcript that was listed to its end, another one is listed
as if it stood alone, except that the count goes on, and a failure is told in terms of the bytes
that are pending when it occurs, in which no earlier response has left a trace.
-/

namespace Imap

theorem SlicesOf.decode_of_mem {slices : List Bytes} {responses : List Decoded}
    (areSlices : SlicesOf slices responses) :
    ∀ slice ∈ slices, ∃ response,
      decode slice = .ok { response := response, consumed := slice.length } := by
  induction areSlices with
  | nil => simp
  | @cons slice decoded others responses isSlice _ inductionHypothesis =>
    obtain ⟨answer, isLong⟩ := isSlice
    refine List.forall_mem_cons.mpr ⟨⟨decoded.response, ?_⟩, inductionHypothesis⟩
    rw [isLong]
    exact answer

namespace Transcript

/-! ## What a transcript holds -/

/-- The responses of a transcript, up to the first failure. -/
def responses (input : Bytes) : List Decoded :=
  (drainAll input).decoded

theorem drainAll_nil : drainAll [] = { decoded := [], failure? := none, buffer := [] } :=
  rfl

theorem drainAll_of_error {input : Bytes} {failure : Failure} (nonempty : input ≠ [])
    (answer : decode input = .error failure) :
    drainAll input = { decoded := [], failure? := some failure, buffer := input } := by
  rw [drainAll, if_neg nonempty]
  exact drain_of_error answer

theorem ne_nil_of_decode {input : Bytes} {first : Decoded} (answer : decode input = .ok first) :
    input ≠ [] := by
  intro isEmpty
  rw [isEmpty, decode_nil] at answer
  cases answer

theorem drainAll_of_ok {input : Bytes} {first : Decoded} (answer : decode input = .ok first) :
    drainAll input = (drainAll (input.drop first.consumed)).cons first := by
  rw [drainAll, if_neg (ne_nil_of_decode answer), drain_of_ok answer]
  by_cases emptied : input.drop first.consumed = []
  · rw [if_pos emptied, emptied]
    rfl
  · rw [if_neg emptied, drainAll, if_neg emptied]

/-- Induction on the responses at the front of a transcript. -/
@[elab_as_elim]
theorem transcript_induction {motive : Bytes → Prop} (input : Bytes) (empty : motive [])
    (failed : ∀ input failure, input ≠ [] → decode input = .error failure → motive input)
    (again : ∀ input first, decode input = .ok first → motive (input.drop first.consumed) →
      motive input) : motive input := by
  induction input using drain_induction with
  | failed input failure answer =>
    by_cases isEmpty : input = []
    · rw [isEmpty]
      exact empty
    · exact failed input failure isEmpty answer
  | emptied input first answer emptied =>
    refine again input first answer ?_
    rw [emptied]
    exact empty
  | again input first answer _ inductionHypothesis =>
    exact again input first answer inductionHypothesis

theorem length_responses_le (input : Bytes) : (responses input).length ≤ input.length := by
  induction input using transcript_induction with
  | empty => exact Nat.le_refl 0
  | failed input failure nonempty answer =>
    rw [responses, drainAll_of_error nonempty answer]
    exact Nat.zero_le _
  | again input first answer inductionHypothesis =>
    have := consumed_pos answer
    have := consumed_le answer
    rw [responses, drainAll_of_ok answer]
    simp only [responses, List.length_drop] at inductionHypothesis
    simp only [Drained.cons, List.length_cons]
    omega

/-- A transcript consists of its responses and of what is pending when the loop ends: nothing, or
bytes that the decoder does not accept. -/
theorem exists_slicesOf_responses (input : Bytes) :
    ∃ slices, SlicesOf slices (responses input) ∧
      slices.flatten ++ (drainAll input).buffer = input ∧
      match (drainAll input).failure? with
      | none => (drainAll input).buffer = []
      | some failure => decode (drainAll input).buffer = .error failure := by
  induction input using transcript_induction with
  | empty => exact ⟨[], .nil, rfl, rfl⟩
  | failed input failure nonempty answer =>
    rw [responses, drainAll_of_error nonempty answer]
    exact ⟨[], .nil, rfl, answer⟩
  | again input first answer inductionHypothesis =>
    obtain ⟨slices, areSlices, rejoined, stopped⟩ := inductionHypothesis
    rw [responses, drainAll_of_ok answer]
    refine ⟨input.take first.consumed :: slices, slicesOf_cons answer areSlices, ?_, stopped⟩
    calc
      (input.take first.consumed :: slices).flatten ++
          (drainAll (input.drop first.consumed)).buffer
        = input.take first.consumed ++
            (slices.flatten ++ (drainAll (input.drop first.consumed)).buffer) := by simp
      _ = input.take first.consumed ++ input.drop first.consumed := by rw [rejoined]
      _ = input := List.take_append_drop first.consumed input

/-- Behind a transcript without a failure, another one is drained as if it stood alone. -/
theorem drainAll_append {first : Bytes} (complete : (drainAll first).failure? = none)
    (second : Bytes) :
    drainAll (first ++ second) = Drained.prepend (responses first) (drainAll second) := by
  induction first using transcript_induction with
  | empty => rfl
  | failed first failure nonempty answer =>
    rw [drainAll_of_error nonempty answer] at complete
    cases complete
  | again first decoded answer inductionHypothesis =>
    rw [drainAll_of_ok answer] at complete
    have others := inductionHypothesis complete
    have stillFirst := decode_append_of_ok answer second
    rw [drainAll_of_ok stillFirst, drop_append_of_ok answer second, others, responses, responses,
      drainAll_of_ok answer]
    rfl

theorem drainAll_flatten {units : List Bytes}
    (areResponses : ∀ unit ∈ units, ∃ response,
      decode unit = .ok { response := response, consumed := unit.length }) :
    (drainAll units.flatten).failure? = none := by
  induction units with
  | nil => rfl
  | cons unit others inductionHypothesis =>
    obtain ⟨unitIsResponse, othersAreResponses⟩ := List.forall_mem_cons.mp areResponses
    obtain ⟨response, answer⟩ := unitIsResponse
    have stillFirst := decode_append_of_ok answer others.flatten
    rw [List.flatten_cons, drainAll_of_ok stillFirst, List.drop_left]
    exact inductionHypothesis othersAreResponses

/-! ## The listing -/

/-- The listing of what a transcript holds, behind lines that have been printed already. -/
def ending (logger : Log.Logger) (printed : Bytes) (count : Nat) (drained : Drained) : Listing :=
  match drained.failure? with
  | none =>
    { exitCode := 0
      output := printed ++ drained.decoded.flatMap responseLine ++
        countLine (count + drained.decoded.length)
      logged := [] }
  | some failure =>
    { exitCode := 1
      output := printed ++ drained.decoded.flatMap responseLine
      logged := logger.log .error (failure.report drained.buffer).text }

variable {logger : Log.Logger}

theorem list_eq_ending (logger : Log.Logger) (input : Bytes) :
    list logger input = ending logger [] 0 (drainAll input) := by
  rw [list, ending]
  cases (drainAll input).failure? with
  | none => simp
  | some failure => rfl

/-- One more response is one more line and adds one to the count. -/
theorem ending_cons (printed : Bytes) (count : Nat) (first : Decoded) (later : Drained) :
    ending logger printed count (later.cons first) =
      ending logger (printed ++ responseLine first) (count + 1) later := by
  simp only [ending, Drained.cons, List.flatMap_cons, List.length_cons, List.append_assoc]
  rw [Nat.add_assoc, Nat.add_comm 1]

theorem ending_prepend (printed : Bytes) (count : Nat) (earlier : List Decoded)
    (later : Drained) :
    ending logger printed count (Drained.prepend earlier later) =
      ending logger (printed ++ earlier.flatMap responseLine) (count + earlier.length) later := by
  induction earlier generalizing printed count with
  | nil => simp [Drained.prepend]
  | cons first others inductionHypothesis =>
    have firstInFront : Drained.prepend (first :: others) later =
        (Drained.prepend others later).cons first := rfl
    rw [firstInFront, ending_cons, inductionHypothesis, List.flatMap_cons, List.length_cons,
      List.append_assoc, Nat.add_assoc, Nat.add_comm 1]

theorem exitCode_eq_zero_iff_failure? {input : Bytes} :
    (list logger input).exitCode = 0 ↔ (drainAll input).failure? = none := by
  rw [list_eq_ending, ending]
  cases (drainAll input).failure? with
  | none => simp
  | some failure => simp

/-- The program exits with zero exactly on the transcripts that hold nothing but responses. -/
theorem exitCode_eq_zero_iff_flatten {input : Bytes} :
    (list logger input).exitCode = 0 ↔
      ∃ units : List Bytes, units.flatten = input ∧ ∀ unit ∈ units, ∃ response,
        decode unit = .ok { response := response, consumed := unit.length } := by
  rw [exitCode_eq_zero_iff_failure?]
  constructor
  · intro complete
    obtain ⟨slices, areSlices, rejoined, stopped⟩ := exists_slicesOf_responses input
    rw [complete] at stopped
    rw [stopped, List.append_nil] at rejoined
    exact ⟨slices, rejoined, areSlices.decode_of_mem⟩
  · rintro ⟨units, shape, areResponses⟩
    subst shape
    exact drainAll_flatten areResponses

/-! ## The loop -/

/-- The variables of the loop: the bytes that are pending, what has been printed, and the number of
responses printed. -/
structure Progress where
  pending : Bytes
  printed : Bytes
  count : Nat

namespace Progress

/-- The variables before the first turn. -/
def start (input : Bytes) : Progress where
  pending := input
  printed := []
  count := 0

/-- One turn of the loop: it ends with a listing, or it goes on with one response less. -/
def turn (logger : Log.Logger) (progress : Progress) : Listing ⊕ Progress :=
  if progress.pending = [] then
    .inl { exitCode := 0, output := progress.printed ++ countLine progress.count, logged := [] }
  else
    match decode progress.pending with
    | .ok decoded =>
      .inr {
        pending := progress.pending.drop decoded.consumed
        printed := progress.printed ++ responseLine decoded
        count := progress.count + 1 }
    | .error failure =>
      .inl {
        exitCode := 1
        output := progress.printed
        logged := logger.log .error (failure.report progress.pending).text }

/-- The loop ends with the listing after so many turns that do not end it. -/
inductive EndsAfter (logger : Log.Logger) : Progress → Nat → Listing → Prop where
  | ends {progress : Progress} {listing : Listing}
      (last : progress.turn logger = .inl listing) : EndsAfter logger progress 0 listing
  | goesOn {progress next : Progress} {turns : Nat} {listing : Listing}
      (turn : progress.turn logger = .inr next) (later : EndsAfter logger next turns listing) :
      EndsAfter logger progress (turns + 1) listing

section Run

variable {printed : Bytes} {count : Nat}

theorem turn_nil :
    turn logger { pending := [], printed := printed, count := count } =
      .inl (ending logger printed count (drainAll [])) := by
  simp [turn, drainAll_nil, ending]

theorem turn_of_error {pending : Bytes} {failure : Failure} (nonempty : pending ≠ [])
    (answer : decode pending = .error failure) :
    turn logger { pending := pending, printed := printed, count := count } =
      .inl (ending logger printed count (drainAll pending)) := by
  rw [drainAll_of_error nonempty answer]
  simp [turn, nonempty, answer, ending]

theorem turn_of_ok {pending : Bytes} {first : Decoded} (answer : decode pending = .ok first) :
    turn logger { pending := pending, printed := printed, count := count } =
      .inr {
        pending := pending.drop first.consumed
        printed := printed ++ responseLine first
        count := count + 1 } := by
  simp [turn, ne_nil_of_decode answer, answer]

/-- The loop takes one turn for each response and then ends. -/
theorem endsAfter_responses (pending : Bytes) :
    EndsAfter logger { pending := pending, printed := printed, count := count }
      (responses pending).length (ending logger printed count (drainAll pending)) := by
  induction pending using transcript_induction generalizing printed count with
  | empty => exact .ends turn_nil
  | failed pending failure nonempty answer =>
    have noResponses : (responses pending).length = 0 := by
      rw [responses, drainAll_of_error nonempty answer]
      rfl
    rw [noResponses]
    exact .ends (turn_of_error nonempty answer)
  | again pending first answer inductionHypothesis =>
    have oneMore : (responses pending).length =
        (responses (pending.drop first.consumed)).length + 1 := by
      rw [responses, drainAll_of_ok answer]
      rfl
    rw [oneMore, drainAll_of_ok answer, ending_cons]
    exact .goesOn (turn_of_ok answer) inductionHypothesis

theorem EndsAfter.deterministic {progress : Progress} {turns others : Nat}
    {listing other : Listing} (run : EndsAfter logger progress turns listing)
    (otherRun : EndsAfter logger progress others other) : others = turns ∧ other = listing := by
  induction run generalizing others other with
  | ends last =>
    cases otherRun with
    | ends otherLast =>
      rw [last] at otherLast
      cases otherLast
      exact ⟨rfl, rfl⟩
    | goesOn turn _ =>
      rw [last] at turn
      cases turn
  | goesOn turn _ inductionHypothesis =>
    cases otherRun with
    | ends otherLast =>
      rw [turn] at otherLast
      cases otherLast
    | goesOn otherTurn later =>
      rw [turn] at otherTurn
      cases otherTurn
      obtain ⟨sameTurns, sameListing⟩ := inductionHypothesis later
      exact ⟨congrArg (· + 1) sameTurns, sameListing⟩

/-- The loop ends on every input, and it has only one way to go. -/
theorem endsAfter_start_iff {input : Bytes} {turns : Nat} {listing : Listing} :
    EndsAfter logger (start input) turns listing ↔
      turns = (responses input).length ∧ listing = list logger input := by
  have run : EndsAfter logger (start input) (responses input).length (list logger input) := by
    rw [list_eq_ending]
    exact endsAfter_responses input
  constructor
  · exact run.deterministic
  · rintro ⟨rfl, rfl⟩
    exact run

end Run

end Progress

/-! ## Transcripts behind each other -/

/-- A listing behind other lines has the exit code and the log of the listing on its own. -/
theorem ending_eq (printed : Bytes) (count : Nat) (input : Bytes) :
    ending logger printed count (drainAll input) =
      { exitCode := (list logger input).exitCode
        output := printed ++ ((responses input).flatMap responseLine ++
          if (list logger input).exitCode = 0 then countLine (count + (responses input).length)
          else [])
        logged := (list logger input).logged } := by
  rw [list_eq_ending, responses]
  rcases drainAll input with ⟨decoded, failure?, buffer⟩
  cases failure? with
  | none => simp [ending]
  | some failure => simp [ending]

theorem list_append {first : Bytes} (complete : (list logger first).exitCode = 0)
    (second : Bytes) :
    list logger (first ++ second) =
      ending logger ((responses first).flatMap responseLine) (responses first).length
        (drainAll second) := by
  rw [list_eq_ending, drainAll_append (exitCode_eq_zero_iff_failure?.mp complete),
    ending_prepend, List.nil_append, Nat.zero_add]

/-- A transcript that is not listed to its end gives its lines and one error, which is told of the
bytes behind the last response. -/
theorem exists_failure_of_incomplete (letsThrough : logger.isEnabled .error = true)
    {input : Bytes} (stopped : (list logger input).exitCode ≠ 0) :
    ∃ slices remaining failure, SlicesOf slices (responses input) ∧
      slices.flatten ++ remaining = input ∧ decode remaining = .error failure ∧
      list logger input =
        { exitCode := 1
          output := (responses input).flatMap responseLine
          logged := [{
            sink := logger.sink
            entry := {
              level := .error
              message := (failure.report remaining).text
              trace? := none } }] } := by
  obtain ⟨slices, areSlices, rejoined, reason⟩ := exists_slicesOf_responses input
  cases found : (drainAll input).failure? with
  | none => exact absurd (exitCode_eq_zero_iff_failure?.mpr found) stopped
  | some failure =>
    rw [found] at reason
    refine ⟨slices, (drainAll input).buffer, failure, areSlices, rejoined, reason, ?_⟩
    rw [list_eq_ending, ending, found]
    simp [responses, Log.Logger.log, letsThrough, Log.Logger.dispatch]

/-- The loop ends on every input. It exits with zero exactly if the input is a sequence of
responses, and what stands behind such an input is listed as if it stood alone, except that the
count goes on. Any other input gives its lines without a count and one error, which is told of the
bytes behind its last response. -/
theorem list_compositional (logger : Log.Logger) (letsThrough : logger.isEnabled .error = true) :
    (∀ input, ∃ turns ≤ input.length, ∀ found listing,
      Progress.EndsAfter logger (Progress.start input) found listing ↔
        found = turns ∧ listing = list logger input) ∧
    (∀ input, (list logger input).exitCode = 0 ↔
      ∃ units : List Bytes, units.flatten = input ∧ ∀ unit ∈ units, ∃ response,
        decode unit = .ok { response := response, consumed := unit.length }) ∧
    (∀ decoded, responseLine decoded =
      ascii decoded.response.kindName ++ ascii " (" ++ Decimal.digits decoded.consumed ++
        ascii " bytes): " ++ decoded.response.wire) ∧
    (∀ first second, (list logger first).exitCode = 0 →
      list logger (first ++ second) =
        { exitCode := (list logger second).exitCode
          output := (responses first).flatMap responseLine ++
            ((responses second).flatMap responseLine ++
              if (list logger second).exitCode = 0 then
                Decimal.digits ((responses first).length + (responses second).length) ++
                  ascii " responses\n"
              else [])
          logged := (list logger second).logged }) ∧
    ∀ input, ∃ slices remaining, SlicesOf slices (responses input) ∧
      slices.flatten ++ remaining = input ∧
      ((list logger input).exitCode = 0 → remaining = []) ∧
      ((list logger input).exitCode ≠ 0 → ∃ failure, decode remaining = .error failure ∧
        list logger input =
          { exitCode := 1
            output := (responses input).flatMap responseLine
            logged := [{
              sink := logger.sink
              entry := {
                level := .error
                message := (failure.report remaining).text
                trace? := none } }] }) := by
  refine ⟨fun input => ?_, fun input => exitCode_eq_zero_iff_flatten, fun _ => rfl, ?_,
    fun input => ?_⟩
  · exact ⟨(responses input).length, length_responses_le input, fun _ _ =>
      Progress.endsAfter_start_iff⟩
  · intro first second complete
    rw [list_append complete, ending_eq, countLine]
  · by_cases complete : (list logger input).exitCode = 0
    · obtain ⟨slices, areSlices, rejoined, stopped⟩ := exists_slicesOf_responses input
      rw [exitCode_eq_zero_iff_failure?.mp complete] at stopped
      exact ⟨slices, (drainAll input).buffer, areSlices, rejoined, fun _ => stopped,
        absurd complete⟩
    · obtain ⟨slices, remaining, failure, areSlices, rejoined, answer, shape⟩ :=
        exists_failure_of_incomplete letsThrough complete
      exact ⟨slices, remaining, areSlices, rejoined, fun isZero => absurd isZero complete,
        fun _ => ⟨failure, answer, shape⟩⟩

/-- A count of messages, and behind it another count that is whole or one that is cut off. -/
theorem list_compositional_mailbox :
    (Log.Logger.initial.isEnabled .error = true ∧
      (list .initial (ascii "* 1 EXISTS\r\n")).exitCode = 0 ∧
      (list .initial (ascii "* 2 REC")).exitCode ≠ 0) ∧
    list .initial (ascii "* 1 EXISTS\r\n" ++ ascii "* 2 RECENT\r\n") =
      { exitCode := 0
        output := ascii "mailbox_data (12 bytes): * 1 EXISTS\r\n" ++
          ascii "mailbox_data (12 bytes): * 2 RECENT\r\n" ++ ascii "2 responses\n"
        logged := [] } ∧
    list .initial (ascii "* 1 EXISTS\r\n" ++ ascii "* 2 REC") =
      { exitCode := 1
        output := ascii "mailbox_data (12 bytes): * 1 EXISTS\r\n"
        logged := [{
          sink := .standardError
          entry := {
            level := .error
            message := ascii "[208] Incomplete IMAP response\nproto=imap\n" ++
              ascii "decode.kind=incomplete\nbuffered.bytes=7\ninput=* 2 REC\n: * 2 REC"
            trace? := none } }] } := by
  have letsThrough : Log.Logger.initial.isEnabled .error = true := by
    decide
  have complete : (list .initial (ascii "* 1 EXISTS\r\n")).exitCode = 0 := by
    decide +kernel
  have isCutOff : (list .initial (ascii "* 2 REC")).exitCode ≠ 0 := by
    decide +kernel
  have firstCount : responses (ascii "* 1 EXISTS\r\n") =
      [{ response := .mailbox (.exists 1), consumed := 12 }] := by
    decide +kernel
  have secondCount : responses (ascii "* 2 RECENT\r\n") =
      [{ response := .mailbox (.recent 2), consumed := 12 }] := by
    decide +kernel
  have noCount : responses (ascii "* 2 REC") = [] := by
    decide +kernel
  have alone : list .initial (ascii "* 2 RECENT\r\n") =
      { exitCode := 0
        output := ascii "mailbox_data (12 bytes): * 2 RECENT\r\n" ++ ascii "1 responses\n"
        logged := [] } := by
    decide +kernel
  obtain ⟨-, -, -, joined, told⟩ := list_compositional .initial letsThrough
  refine ⟨⟨letsThrough, complete, isCutOff⟩, ?_, ?_⟩
  · rw [joined _ (ascii "* 2 RECENT\r\n") complete, alone, firstCount, secondCount]
    decide +kernel
  · obtain ⟨slices, remaining, areSlices, rejoined, -, failed⟩ := told (ascii "* 2 REC")
    obtain ⟨failure, answer, stopped⟩ := failed isCutOff
    -- No response has been taken off, so that every byte of the second transcript is pending.
    rw [noCount] at areSlices
    cases areSlices
    have allPending : remaining = ascii "* 2 REC" := rejoined
    have waits : decode (ascii "* 2 REC") = .error (.incomplete none) := by
      decide +kernel
    rw [allPending, waits] at answer
    cases answer
    rw [joined _ (ascii "* 2 REC") complete, stopped, allPending, firstCount, noCount]
    decide +kernel

end Transcript

end Imap
