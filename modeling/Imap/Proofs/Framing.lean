import Imap.Proofs.Decoding
import Imap.Stream.Session

/-!
# Framing does not depend on the chunks

A session that receives a stream in pieces finds the responses that it would find if the stream
came at once, and keeps the same bytes at the end. A cut may fall anywhere, also inside a line end
or a literal: a response that is cut is found when its last byte has arrived, and what the decoder
refuses stays in front of the buffer for good. The bytes of the responses found and the bytes kept
are together the bytes received, so none is lost and none is used twice.
-/

namespace Imap

/-! ## Draining a buffer -/

theorem drain_of_error {buffer : Bytes} {failure : Failure}
    (answer : decode buffer = .error failure) :
    drain buffer = { decoded := [], failure? := some failure, buffer := buffer } := by
  rw [drain]
  split
  · rename_i found foundAnswer
    rw [answer] at foundAnswer
    cases foundAnswer
    rfl
  · rename_i first success
    rw [answer] at success
    cases success

theorem drain_of_ok {buffer : Bytes} {first : Decoded} (answer : decode buffer = .ok first) :
    drain buffer =
      if buffer.drop first.consumed = [] then
        { decoded := [first], failure? := none, buffer := [] }
      else (drain (buffer.drop first.consumed)).cons first := by
  rw [drain]
  split
  · rename_i found foundAnswer
    rw [answer] at foundAnswer
    cases foundAnswer
  · rename_i success
    rw [answer] at success
    cases success
    rfl

theorem drain_of_emptied {buffer : Bytes} {first : Decoded} (answer : decode buffer = .ok first)
    (emptied : buffer.drop first.consumed = []) :
    drain buffer = { decoded := [first], failure? := none, buffer := [] } := by
  rw [drain_of_ok answer, if_pos emptied]

theorem drain_of_more {buffer : Bytes} {first : Decoded} (answer : decode buffer = .ok first)
    (more : buffer.drop first.consumed ≠ []) :
    drain buffer = (drain (buffer.drop first.consumed)).cons first := by
  rw [drain_of_ok answer, if_neg more]

/-- Induction on the responses at the front of a buffer. -/
theorem drain_induction {motive : Bytes → Prop}
    (failed : ∀ buffer failure, decode buffer = .error failure → motive buffer)
    (emptied : ∀ buffer first, decode buffer = .ok first → buffer.drop first.consumed = [] →
      motive buffer)
    (again : ∀ buffer first, decode buffer = .ok first → buffer.drop first.consumed ≠ [] →
      motive (buffer.drop first.consumed) → motive buffer)
    (buffer : Bytes) : motive buffer := by
  cases answer : decode buffer with
  | error failure => exact failed buffer failure answer
  | ok first =>
    by_cases isEmptied : buffer.drop first.consumed = []
    · exact emptied buffer first answer isEmptied
    · exact again buffer first answer isEmptied (drain_induction failed emptied again _)
termination_by buffer.length
decreasing_by
  have := consumed_pos answer
  have := consumed_le answer
  simp only [List.length_drop]
  omega

theorem drop_append_of_ok {buffer : Bytes} {first : Decoded} (answer : decode buffer = .ok first)
    (later : Bytes) :
    (buffer ++ later).drop first.consumed = buffer.drop first.consumed ++ later :=
  List.drop_append_of_le_length (consumed_le answer)

namespace Drained

/-- Puts responses in front of those already drained. -/
def prepend (earlier : List Decoded) (later : Drained) : Drained :=
  earlier.foldr cons later

@[simp]
theorem decoded_prepend (earlier : List Decoded) (later : Drained) :
    (prepend earlier later).decoded = earlier ++ later.decoded := by
  induction earlier with
  | nil => rfl
  | cons first others inductionHypothesis =>
    exact congrArg (first :: ·) inductionHypothesis

@[simp]
theorem buffer_prepend (earlier : List Decoded) (later : Drained) :
    (prepend earlier later).buffer = later.buffer := by
  induction earlier with
  | nil => rfl
  | cons first others inductionHypothesis => exact inductionHypothesis

end Drained

/-- Bytes that arrive after a drain are drained together with the bytes it has left. -/
theorem drain_append (buffer : Bytes) {later : Bytes} (nonempty : later ≠ []) :
    drain (buffer ++ later) =
      Drained.prepend (drain buffer).decoded (drain ((drain buffer).buffer ++ later)) := by
  induction buffer using drain_induction with
  | failed buffer failure answer =>
    rw [drain_of_error answer]
    rfl
  | emptied buffer first answer emptied =>
    -- A response ended the buffer, so the later bytes are drained on their own.
    have stillFirst := decode_append_of_ok answer later
    have left := drop_append_of_ok answer later
    rw [emptied, List.nil_append] at left
    have more : (buffer ++ later).drop first.consumed ≠ [] := by
      rw [left]
      exact nonempty
    rw [drain_of_more stillFirst more, left, drain_of_emptied answer emptied]
    rfl
  | again buffer first answer moreLeft inductionHypothesis =>
    have stillFirst := decode_append_of_ok answer later
    have left := drop_append_of_ok answer later
    have more : (buffer ++ later).drop first.consumed ≠ [] := by
      rw [left]
      exact List.append_ne_nil_of_right_ne_nil _ nonempty
    rw [drain_of_more stillFirst more, left, inductionHypothesis, drain_of_more answer moreLeft]
    rfl

theorem decode_nil : decode [] = .error (.incomplete none) := by
  decide

theorem drain_buffer_drain (buffer : Bytes) :
    (drain (drain buffer).buffer).decoded = [] ∧
      (drain (drain buffer).buffer).buffer = (drain buffer).buffer := by
  induction buffer using drain_induction with
  | failed buffer failure answer =>
    rw [drain_of_error answer, drain_of_error answer]
    exact ⟨rfl, rfl⟩
  | emptied buffer first answer emptied =>
    rw [drain_of_emptied answer emptied, drain_of_error decode_nil]
    exact ⟨rfl, rfl⟩
  | again buffer first answer more inductionHypothesis =>
    rw [drain_of_more answer more]
    exact inductionHypothesis

/-- The slices are the bytes of the responses, in order. -/
def SlicesOf (slices : List Bytes) (responses : List Decoded) : Prop :=
  List.Forall₂ (fun slice decoded => decode slice = .ok decoded ∧ slice.length = decoded.consumed)
    slices responses

theorem slicesOf_cons {buffer : Bytes} {first : Decoded} (answer : decode buffer = .ok first)
    {slices : List Bytes} {responses : List Decoded} (others : SlicesOf slices responses) :
    SlicesOf (buffer.take first.consumed :: slices) (first :: responses) :=
  .cons ⟨decode_take_consumed answer, List.length_take_of_le (consumed_le answer)⟩ others

/-- A buffer is made of the bytes of its responses and the bytes that a drain leaves. -/
theorem exists_slicesOf_drain (buffer : Bytes) :
    ∃ slices, SlicesOf slices (drain buffer).decoded ∧
      slices.flatten ++ (drain buffer).buffer = buffer := by
  induction buffer using drain_induction with
  | failed buffer failure answer =>
    rw [drain_of_error answer]
    exact ⟨[], .nil, rfl⟩
  | emptied buffer first answer emptied =>
    rw [drain_of_emptied answer emptied]
    refine ⟨[buffer.take first.consumed], slicesOf_cons answer .nil, ?_⟩
    have splits := List.take_append_drop first.consumed buffer
    rw [emptied] at splits
    simpa using splits
  | again buffer first answer more inductionHypothesis =>
    rw [drain_of_more answer more]
    obtain ⟨slices, areSlices, rejoined⟩ := inductionHypothesis
    refine ⟨buffer.take first.consumed :: slices, slicesOf_cons answer areSlices, ?_⟩
    calc
      (buffer.take first.consumed :: slices).flatten ++
          (drain (buffer.drop first.consumed)).buffer
        = buffer.take first.consumed ++
            (slices.flatten ++ (drain (buffer.drop first.consumed)).buffer) := by simp
      _ = buffer.take first.consumed ++ buffer.drop first.consumed := by rw [rejoined]
      _ = buffer := List.take_append_drop first.consumed buffer

namespace Session

/-! ## Decoding all, one response at a time -/

/-- The session decodes again and again until a failure, or until a success has left nothing, and
`results` are the answers. -/
inductive DecodesAll : Session → List (Except Failure Decoded) → Session → Prop where
  | failed {session next : Session} {failure : Failure}
      (answer : session.decodeOne = (.error failure, next)) :
      DecodesAll session [.error failure] next
  | emptied {session next : Session} {decoded : Decoded}
      (answer : session.decodeOne = (.ok decoded, next)) (isEmpty : next.buffer = []) :
      DecodesAll session [.ok decoded] next
  | again {session next last : Session} {decoded : Decoded}
      {results : List (Except Failure Decoded)}
      (answer : session.decodeOne = (.ok decoded, next)) (notEmpty : next.buffer ≠ [])
      (later : DecodesAll next results last) :
      DecodesAll session (.ok decoded :: results) last

theorem decodeOne_eq_error_iff {session next : Session} {failure : Failure} :
    session.decodeOne = (.error failure, next) ↔
      decode session.buffer = .error failure ∧ next = session := by
  unfold decodeOne
  cases decode session.buffer with
  | ok decoded => simp
  | error found =>
    simp only [Prod.mk.injEq, Except.error.injEq]
    exact and_congr_right fun _ => eq_comm

theorem decodeOne_eq_ok_iff {session next : Session} {decoded : Decoded} :
    session.decodeOne = (.ok decoded, next) ↔
      decode session.buffer = .ok decoded ∧ next = session.drop decoded.consumed := by
  unfold decodeOne
  cases decode session.buffer with
  | ok found =>
    simp only [Prod.mk.injEq, Except.ok.injEq]
    constructor
    · rintro ⟨rfl, rfl⟩
      exact ⟨rfl, rfl⟩
    · rintro ⟨rfl, rfl⟩
      exact ⟨rfl, rfl⟩
  | error failure => simp

theorem decodeAll_of_error {session : Session} {failure : Failure}
    (answer : decode session.buffer = .error failure) :
    session.decodeAll = ([.error failure], session) := by
  rw [decodeAll, drain_of_error answer]
  rfl

theorem decodeAll_of_emptied {session : Session} {decoded : Decoded}
    (answer : decode session.buffer = .ok decoded)
    (emptied : session.buffer.drop decoded.consumed = []) :
    session.decodeAll = ([.ok decoded], session.drop decoded.consumed) := by
  rw [decodeAll, drain_of_emptied answer emptied, drop, emptied]
  rfl

theorem decodeAll_of_more {session : Session} {decoded : Decoded}
    (answer : decode session.buffer = .ok decoded)
    (more : session.buffer.drop decoded.consumed ≠ []) :
    session.decodeAll = (session.drop decoded.consumed).decodeAll.map (.ok decoded :: ·) id := by
  rw [decodeAll, drain_of_more answer more]
  rfl

theorem DecodesAll.eq_decodeAll {session last : Session}
    {results : List (Except Failure Decoded)} (run : session.DecodesAll results last) :
    session.decodeAll = (results, last) := by
  induction run with
  | failed answer =>
    obtain ⟨fails, rfl⟩ := decodeOne_eq_error_iff.mp answer
    exact decodeAll_of_error fails
  | emptied answer isEmpty =>
    obtain ⟨success, rfl⟩ := decodeOne_eq_ok_iff.mp answer
    exact decodeAll_of_emptied success isEmpty
  | again answer notEmpty later inductionHypothesis =>
    obtain ⟨success, rfl⟩ := decodeOne_eq_ok_iff.mp answer
    rw [decodeAll_of_more success notEmpty, inductionHypothesis]
    rfl

theorem decodesAll_decodeAll (session : Session) :
    session.DecodesAll session.decodeAll.1 session.decodeAll.2 := by
  obtain ⟨buffer⟩ := session
  induction buffer using drain_induction with
  | failed buffer failure fails =>
    rw [decodeAll_of_error fails]
    exact .failed (decodeOne_eq_error_iff.mpr ⟨fails, rfl⟩)
  | emptied buffer first success emptied =>
    rw [decodeAll_of_emptied success emptied]
    exact .emptied (decodeOne_eq_ok_iff.mpr ⟨success, rfl⟩) emptied
  | again buffer first success more inductionHypothesis =>
    rw [decodeAll_of_more success more]
    exact .again (decodeOne_eq_ok_iff.mpr ⟨success, rfl⟩) more inductionHypothesis

/-- Decoding all ends, and it has only one way to go. -/
theorem decodesAll_iff {session last : Session} {results : List (Except Failure Decoded)} :
    session.DecodesAll results last ↔ session.decodeAll = (results, last) := by
  constructor
  · exact DecodesAll.eq_decodeAll
  · intro same
    have run := decodesAll_decodeAll session
    rw [same] at run
    exact run

/-! ## Chunks -/

/-- A session receives a chunk by adding it and decoding all. -/
theorem receive_eq_decodeAll (session : Session) (chunk : Bytes) :
    session.receive chunk =
      (session.feed chunk).decodeAll.map (·.filterMap Except.toOption) id := by
  have noFailures : ∀ failure? : Option Failure,
      ((failure?.map Except.error).toList : List (Except Failure Decoded)).filterMap
        Except.toOption = [] := by
    intro failure?
    cases failure? with
    | none => rfl
    | some failure => rfl
  have successes : ∀ decoded : List Decoded,
      (decoded.map Except.ok : List (Except Failure Decoded)).filterMap Except.toOption =
        decoded := by
    intro decoded
    rw [List.filterMap_map]
    exact List.filterMap_some
  rw [receive, decodeAll, Prod.map, List.filterMap_append, noFailures, successes,
    List.append_nil]
  rfl

theorem receive_append (session : Session) (first second : Bytes) :
    session.receive (first ++ second) =
      ((session.receive first).1 ++ ((session.receive first).2.receive second).1,
        ((session.receive first).2.receive second).2) := by
  simp only [receive, feed]
  rw [← List.append_assoc]
  -- With nothing to add, the second drain meets what the first one could not decode.
  by_cases isEmpty : second = []
  · obtain ⟨nothing, sameBuffer⟩ := drain_buffer_drain (session.buffer ++ first)
    rw [isEmpty, List.append_nil, List.append_nil, nothing, sameBuffer, List.append_nil]
  · rw [drain_append _ isEmpty, Drained.decoded_prepend, Drained.buffer_prepend]

theorem receiveAll_nil (session : Session) : session.receiveAll [] = ([], session) :=
  rfl

theorem receiveAll_cons (session : Session) (chunk : Bytes) (chunks : List Bytes) :
    session.receiveAll (chunk :: chunks) =
      ((session.receive chunk).1 ++ ((session.receive chunk).2.receiveAll chunks).1,
        ((session.receive chunk).2.receiveAll chunks).2) :=
  rfl

theorem receiveAll_eq_receive (session : Session) (chunk : Bytes) (chunks : List Bytes) :
    session.receiveAll (chunk :: chunks) = session.receive (chunk :: chunks).flatten := by
  induction chunks generalizing session chunk with
  | nil =>
    rw [List.flatten_singleton, receiveAll_cons, receiveAll_nil, List.append_nil]
  | cons second others inductionHypothesis =>
    rw [receiveAll_cons, inductionHypothesis]
    exact (receive_append session chunk (second :: others).flatten).symm

/-- Receiving chunk by chunk is receiving all of them at once; the bytes of the responses and the
bytes kept are the bytes received; and decoding all ends after every chunk. -/
theorem receiveAll_independent_of_chunks (session : Session) (chunk : Bytes)
    (chunks : List Bytes) :
    session.receiveAll (chunk :: chunks) = session.receive (chunk :: chunks).flatten ∧
    (∃ slices : List Bytes,
      List.Forall₂ (fun slice decoded => decode slice = .ok decoded ∧
        slice.length = decoded.consumed) slices (session.receiveAll (chunk :: chunks)).1 ∧
      slices.flatten ++ (session.receiveAll (chunk :: chunks)).2.buffer =
        session.buffer ++ (chunk :: chunks).flatten) ∧
    ∃ results, results.filterMap Except.toOption = (session.receive chunk).1 ∧
      ∀ found last, (session.feed chunk).DecodesAll found last ↔
        found = results ∧ last = (session.receive chunk).2 := by
  refine ⟨receiveAll_eq_receive session chunk chunks, ?_, ?_⟩
  · rw [receiveAll_eq_receive]
    exact exists_slicesOf_drain (session.buffer ++ (chunk :: chunks).flatten)
  · rw [receive_eq_decodeAll]
    refine ⟨(session.feed chunk).decodeAll.1, rfl, fun found last => ?_⟩
    rw [decodesAll_iff]
    constructor
    · intro same
      rw [same]
      exact ⟨rfl, rfl⟩
    · rintro ⟨rfl, rfl⟩
      rfl

end Session

end Imap
