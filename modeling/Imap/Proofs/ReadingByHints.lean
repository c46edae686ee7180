import Mathlib.Order.Bounds.Basic
import Imap.Proofs.Hints
import Imap.Stream.Reader

/-!
# Reading by hints finds the end of one response

The loop that appends as many bytes as the hint says, or one byte without a hint, is told here as a
relation. The reader is its only run, because a hint is never zero.

A reader that follows the hints skips lengths at which it does not call the decoder. Since the
decoder would have waited at each of them, the reader stops where a reader that asks for one byte
at a time would stop: at the first length with a definite answer, or at the end of the source. If a
response stands at the front of the source, this is the length of the response, and no byte behind
it has been asked for.
-/

namespace Imap

/-- The lengths at which a reader of the source may stop: the decoder gives a definite answer on so
many bytes, or there are no more. -/
def decidedLengths (source : Bytes) : Set Nat :=
  {length | length ≤ source.length ∧
    (length = source.length ∨
      ∀ needed, decode (source.take length) ≠ .error (.incomplete needed))}

/-- The decoder never hints at zero bytes. -/
theorem hint_pos {input : Bytes} {needed : Option Nat}
    (waits : decode input = .error (.incomplete needed)) : 0 < needed.getD 1 := by
  cases needed with
  | none => exact Nat.one_pos
  | some count => exact Response.stable_rule.needed_pos (decode_eq_error_iff.mp waits)

/-- So what a reader asks for is the hint itself. -/
theorem request_of_waits {input : Bytes} {needed : Option Nat}
    (waits : decode input = .error (.incomplete needed)) :
    (Failure.incomplete needed).request = needed.getD 1 :=
  Nat.max_eq_right (hint_pos waits)

/-- Fewer bytes than the decoder hints at decide nothing. -/
theorem decode_append_of_lt_hint {input : Bytes} {needed : Option Nat}
    (waits : decode input = .error (.incomplete needed)) {later : Bytes}
    (fewer : later.length < needed.getD 1) :
    ∃ left, decode (input ++ later) = .error (.incomplete left) := by
  cases needed with
  | none =>
    have isEmpty : later = [] := List.length_eq_zero_iff.mp (Nat.lt_one_iff.mp fewer)
    rw [isEmpty, List.append_nil]
    exact ⟨none, waits⟩
  | some count => exact decode_append_of_le_needed waits (Nat.le_of_lt fewer)

section Source

variable {source : Bytes}

/-- Between a call of the decoder and the next one there is no length to stop at. -/
theorem decode_take_of_skipped {buffered length : Nat} {needed : Option Nat}
    (waits : decode (source.take buffered) = .error (.incomplete needed))
    (isLater : buffered ≤ length) (inside : length ≤ source.length)
    (skipped : length < buffered + needed.getD 1) :
    ∃ left, decode (source.take length) = .error (.incomplete left) := by
  have splits : source.take buffered ++ (source.drop buffered).take (length - buffered) =
      source.take length := by
    rw [← List.take_add, Nat.add_sub_cancel' isLater]
  have fewer : ((source.drop buffered).take (length - buffered)).length < needed.getD 1 := by
    rw [List.length_take, List.length_drop]
    omega
  rw [← splits]
  exact decode_append_of_lt_hint waits fewer

/-- No reader of the source stops before it has `buffered` bytes. -/
structure Undecided (source : Bytes) (buffered : Nat) : Prop where
  inside : buffered ≤ source.length
  waiting : ∀ length < buffered, ∃ needed, decode (source.take length) = .error (.incomplete needed)

namespace Undecided

theorem zero (source : Bytes) : Undecided source 0 where
  inside := Nat.zero_le _
  waiting := fun _ below => absurd below (Nat.not_lt_zero _)

theorem next {buffered : Nat} (undecided : Undecided source buffered) {needed : Option Nat}
    (waits : decode (source.take buffered) = .error (.incomplete needed)) :
    Undecided source (min source.length (buffered + needed.getD 1)) where
  inside := Nat.min_le_left _ _
  waiting := by
    intro length below
    -- Earlier calls have passed over the lengths before this call, and its hint over the others.
    by_cases isEarlier : length < buffered
    · exact undecided.waiting length isEarlier
    · exact decode_take_of_skipped waits (Nat.not_lt.mp isEarlier) (by omega) (by omega)

theorem of_ok {decoded : Decoded} (success : decode source = .ok decoded) :
    Undecided source decoded.consumed where
  inside := consumed_le success
  waiting := by
    intro length below
    have shorter : (source.take length).length < decoded.consumed := by
      rw [List.length_take]
      omega
    exact decode_of_prefix success (List.take_prefix length source) shorter

theorem isLeast {buffered : Nat} (undecided : Undecided source buffered)
    (stops : buffered ∈ decidedLengths source) : IsLeast (decidedLengths source) buffered := by
  refine ⟨stops, fun length lengthStops => ?_⟩
  by_contra notLess
  have below : length < buffered := Nat.not_le.mp notLess
  obtain ⟨needed, waits⟩ := undecided.waiting length below
  rcases lengthStops with ⟨-, isEnd | definite⟩
  · exact absurd undecided.inside (by omega)
  · exact definite needed waits

end Undecided

/-! ## The calls of the decoder -/

/-- The call of the decoder on the first bytes of the source. -/
def attemptAt (source : Bytes) (buffered : Nat) : Attempt where
  buffered := buffered
  result := decode (source.take buffered)

theorem readFrom_of_stops {buffered : Nat} (stops : buffered ∈ decidedLengths source) :
    readFrom source buffered = ([], attemptAt source buffered) := by
  rw [readFrom, attemptAt]
  cases answer : decode (source.take buffered) with
  | ok decoded => rfl
  | error failure =>
    cases failure with
    | malformed => rfl
    | incomplete needed =>
      rcases stops.2 with isEnd | definite
      · rw [isEnd]
        exact if_neg (Nat.lt_irrefl _)
      · exact absurd answer (definite needed)

theorem readFrom_of_waits {buffered : Nat} {needed : Option Nat}
    (waits : decode (source.take buffered) = .error (.incomplete needed))
    (more : buffered < source.length) :
    readFrom source buffered =
      (readFrom source (min source.length (buffered + needed.getD 1))).map
        (attemptAt source buffered :: ·) id := by
  rw [readFrom, attemptAt, waits, ← request_of_waits waits]
  exact if_pos more

theorem mem_decidedLengths_or {buffered : Nat} (inside : buffered ≤ source.length) :
    buffered ∈ decidedLengths source ∨ buffered < source.length ∧
      ∃ needed, decode (source.take buffered) = .error (.incomplete needed) := by
  by_cases isEnd : buffered = source.length
  · exact Or.inl ⟨inside, Or.inl isEnd⟩
  · by_cases waiting : ∃ needed, decode (source.take buffered) = .error (.incomplete needed)
    · exact Or.inr ⟨Nat.lt_of_le_of_ne inside isEnd, waiting⟩
    · exact Or.inl ⟨inside, Or.inr (not_exists.mp waiting)⟩

/-- Induction on the calls of the decoder. At each of them the reader stops, or what follows is the
reading from the next call. -/
theorem Undecided.induction {motive : ∀ buffered, Undecided source buffered → Prop}
    (stops : ∀ buffered undecided, buffered ∈ decidedLengths source → motive buffered undecided)
    (goesOn : ∀ buffered undecided needed, buffered < source.length →
      (waits : decode (source.take buffered) = .error (.incomplete needed)) →
      motive (min source.length (buffered + needed.getD 1)) (undecided.next waits) →
      motive buffered undecided)
    (buffered : Nat) (undecided : Undecided source buffered) : motive buffered undecided := by
  rcases mem_decidedLengths_or undecided.inside with here | ⟨more, needed, waits⟩
  · exact stops buffered undecided here
  · have next := undecided.next waits
    exact goesOn buffered undecided needed more waits (Undecided.induction stops goesOn _ next)
termination_by source.length - buffered
decreasing_by
  have := hint_pos waits
  omega

/-- The last call is made at the first place where a reader may stop. -/
theorem Undecided.last_readFrom {buffered : Nat} (undecided : Undecided source buffered) :
    ∃ length, IsLeast (decidedLengths source) length ∧
      (readFrom source buffered).2 = attemptAt source length := by
  induction buffered, undecided using Undecided.induction with
  | stops buffered undecided here =>
    rw [readFrom_of_stops here]
    exact ⟨buffered, undecided.isLeast here, rfl⟩
  | goesOn buffered undecided needed more waits inductionHypothesis =>
    rw [readFrom_of_waits waits more]
    exact inductionHypothesis

theorem Undecided.waits_of_mem_readFrom {buffered : Nat} (undecided : Undecided source buffered)
    {attempt : Attempt} (isEarlier : attempt ∈ (readFrom source buffered).1) :
    ∃ needed, attempt.result = .error (.incomplete needed) := by
  induction buffered, undecided using Undecided.induction with
  | stops buffered undecided here =>
    rw [readFrom_of_stops here] at isEarlier
    cases isEarlier
  | goesOn buffered undecided needed more waits inductionHypothesis =>
    rw [readFrom_of_waits waits more] at isEarlier
    rcases List.mem_cons.mp isEarlier with isFirst | isLater
    · rw [isFirst]
      exact ⟨needed, waits⟩
    · exact inductionHypothesis isLater

/-- A response at the front of the source is the first thing that a reader may stop for. -/
theorem isLeast_consumed {decoded : Decoded} (success : decode source = .ok decoded) :
    IsLeast (decidedLengths source) decoded.consumed := by
  refine (Undecided.of_ok success).isLeast ⟨consumed_le success, Or.inr fun needed waits => ?_⟩
  rw [decode_take_consumed success] at waits
  cases waits

/-! ## The loop -/

/-- The loop from the time when so many bytes have been read: the calls that wait, and the last one.
Where it does not stop, it appends as many bytes as the hint says, or one byte without a hint, and
fewer if the source ends. -/
inductive FollowsHints (source : Bytes) : Nat → List Attempt → Attempt → Prop where
  | stops {buffered : Nat} (here : buffered ∈ decidedLengths source) :
      FollowsHints source buffered [] (attemptAt source buffered)
  | goesOn {buffered : Nat} {needed : Option Nat} {calls : List Attempt} {last : Attempt}
      (more : buffered < source.length)
      (waits : decode (source.take buffered) = .error (.incomplete needed))
      (later : FollowsHints source (min source.length (buffered + needed.getD 1)) calls last) :
      FollowsHints source buffered (attemptAt source buffered :: calls) last

namespace FollowsHints

theorem of_readFrom {buffered : Nat} (undecided : Undecided source buffered) :
    FollowsHints source buffered (readFrom source buffered).1 (readFrom source buffered).2 := by
  induction buffered, undecided using Undecided.induction with
  | stops buffered undecided here =>
    rw [readFrom_of_stops here]
    exact .stops here
  | goesOn buffered undecided needed more waits inductionHypothesis =>
    rw [readFrom_of_waits waits more]
    exact .goesOn more waits inductionHypothesis

theorem readFrom_eq {buffered : Nat} {calls : List Attempt} {last : Attempt}
    (run : FollowsHints source buffered calls last) : readFrom source buffered = (calls, last) := by
  induction run with
  | stops here => exact readFrom_of_stops here
  | goesOn more waits _ inductionHypothesis =>
    rw [readFrom_of_waits waits more, inductionHypothesis]
    rfl

end FollowsHints

/-- The reader is the only run of the loop. -/
theorem followsHints_zero_iff {calls : List Attempt} {last : Attempt} :
    FollowsHints source 0 calls last ↔
      calls = (readByHints source).1 ∧ last = (readByHints source).2 := by
  constructor
  · intro run
    rw [readByHints, run.readFrom_eq]
    exact ⟨rfl, rfl⟩
  · intro isReading
    rw [isReading.1, isReading.2]
    exact .of_readFrom (.zero source)

end Source

/-- The loop that follows the hints ends in one way only. It stops where a definite answer is first
possible, and if a response stands at the front of the source, it has read this response and nothing
else. -/
theorem readByHints_stops_first (source : Bytes) :
    (∀ calls last, FollowsHints source 0 calls last ↔
      calls = (readByHints source).1 ∧ last = (readByHints source).2) ∧
    IsLeast (decidedLengths source) (readByHints source).2.buffered ∧
    (readByHints source).2.result = decode (source.take (readByHints source).2.buffered) ∧
    (∀ attempt ∈ (readByHints source).1,
      ∃ needed, attempt.result = .error (.incomplete needed)) ∧
    ∀ decoded, decode source = .ok decoded →
      (readByHints source).2 = { buffered := decoded.consumed, result := .ok decoded } := by
  have undecided := Undecided.zero source
  obtain ⟨length, isFirst, isLast⟩ := undecided.last_readFrom
  have lastAttempt : (readByHints source).2 = attemptAt source length := isLast
  refine ⟨fun calls last => followsHints_zero_iff, ?_⟩
  rw [lastAttempt]
  refine ⟨isFirst, rfl, fun attempt isEarlier => undecided.waits_of_mem_readFrom isEarlier, ?_⟩
  intro decoded success
  have sameLength : length = decoded.consumed := isFirst.unique (isLeast_consumed success)
  rw [sameLength, attemptAt, decode_take_consumed success]

/-- A message with a literal in front of another response. The first call, on no bytes, waits, and
the loop ends with the message. -/
theorem readByHints_stops_first_message :
    (attemptAt (ascii "* 1 FETCH (RFC822 \x7b2\x7d\r\nHi)\r\n* BYE") 0 ∈
        (readByHints (ascii "* 1 FETCH (RFC822 \x7b2\x7d\r\nHi)\r\n* BYE")).1 ∧
      ∃ needed, (attemptAt (ascii "* 1 FETCH (RFC822 \x7b2\x7d\r\nHi)\r\n* BYE") 0).result =
        .error (.incomplete needed)) ∧
    decode (ascii "* 1 FETCH (RFC822 \x7b2\x7d\r\nHi)\r\n* BYE") =
      .ok { response := .fetch 1 [.rfc822 (some (ascii "Hi"))], consumed := 28 } ∧
    (readByHints (ascii "* 1 FETCH (RFC822 \x7b2\x7d\r\nHi)\r\n* BYE")).2 =
      { buffered := 28
        result := .ok
          { response := .fetch 1 [.rfc822 (some (ascii "Hi"))], consumed := 28 } } ∧
    ∃ calls, FollowsHints (ascii "* 1 FETCH (RFC822 \x7b2\x7d\r\nHi)\r\n* BYE") 0 calls
      { buffered := 28
        result := .ok
          { response := .fetch 1 [.rfc822 (some (ascii "Hi"))], consumed := 28 } } := by
  obtain ⟨runs, -, -, waiting, reads⟩ :=
    readByHints_stops_first (ascii "* 1 FETCH (RFC822 \x7b2\x7d\r\nHi)\r\n* BYE")
  have success : decode (ascii "* 1 FETCH (RFC822 \x7b2\x7d\r\nHi)\r\n* BYE") =
      .ok { response := .fetch 1 [.rfc822 (some (ascii "Hi"))], consumed := 28 } := by
    decide +kernel
  have isEarlier : attemptAt (ascii "* 1 FETCH (RFC822 \x7b2\x7d\r\nHi)\r\n* BYE") 0 ∈
      (readByHints (ascii "* 1 FETCH (RFC822 \x7b2\x7d\r\nHi)\r\n* BYE")).1 := by
    have waits : decode ((ascii "* 1 FETCH (RFC822 \x7b2\x7d\r\nHi)\r\n* BYE").take 0) =
        .error (.incomplete none) := by
      decide +kernel
    rw [readByHints, readFrom_of_waits waits (by decide +kernel)]
    exact List.mem_cons_self
  have readsMessage := reads _ success
  exact ⟨⟨isEarlier, waiting _ isEarlier⟩, success, readsMessage,
    ⟨_, (runs _ _).mpr ⟨rfl, readsMessage.symm⟩⟩⟩

end Imap
