import Imap.Proofs.Grammar.ResponseReading
import Imap.Proofs.Grammar.Stability

/-!
# What the decoder accepts

The decoder accepts a buffer exactly if a spelling of a response stands at its front, and it then
gives that response and the length of the spelling. So an answer depends on the bytes it spans and
on no others. A refusal is as final as an acceptance: only an incomplete answer can change when
bytes are added.
-/

namespace Imap

theorem decode_eq_ok_iff_append {input : Bytes} {decoded : Decoded} :
    decode input = .ok decoded ↔
      ∃ word rest, word ∈ decoded.response.spelling ∧ word.length = decoded.consumed ∧
        word ++ rest = input := by
  rw [decode_eq_ok_iff]
  constructor
  · intro ruleMatch
    rcases ruleMatch with ⟨rest, ruleMatch, consumedEq⟩
    obtain ⟨-, word, isWord, shape⟩ := Response.reads_rule.sound ruleMatch
    subst shape
    refine ⟨word, rest, isWord, ?_, rfl⟩
    rw [consumedEq, List.length_append]
    omega
  · intro spelled
    rcases spelled with ⟨word, rest, isWord, sameLength, shape⟩
    subst shape
    refine ⟨rest, ?_, ?_⟩
    · exact Response.reads_rule.complete (Set.mem_univ _) isWord (Set.mem_univ rest)
    · rw [← sameLength, List.length_append]
      omega

theorem decode_of_mem_spelling {response : Response} {word : Bytes}
    (isWord : word ∈ response.spelling) (later : Bytes) :
    decode (word ++ later) = .ok { response := response, consumed := word.length } :=
  decode_eq_ok_iff_append.mpr ⟨word, later, isWord, rfl, rfl⟩

/-- The decoder accepts exactly the spellings of responses. -/
theorem decode_eq_ok_iff_mem_spelling (input : Bytes) (response : Response) (consumed : Nat) :
    decode input = .ok { response := response, consumed := consumed } ↔
      consumed ≤ input.length ∧ input.take consumed ∈ response.spelling := by
  rw [decode_eq_ok_iff_append]
  constructor
  · intro spelled
    rcases spelled with ⟨word, rest, isWord, sameLength, shape⟩
    subst shape
    have spansWord : word.length = consumed := sameLength
    subst spansWord
    refine ⟨?_, ?_⟩
    · rw [List.length_append]
      omega
    · rw [List.take_left]
      exact isWord
  · intro spelled
    rcases spelled with ⟨inside, isWord⟩
    exact ⟨input.take consumed, input.drop consumed, isWord, List.length_take_of_le inside,
      List.take_append_drop consumed input⟩

/-! ## Final answers -/

theorem decode_append_of_ok {input : Bytes} {decoded : Decoded}
    (success : decode input = .ok decoded) (later : Bytes) :
    decode (input ++ later) = .ok decoded := by
  obtain ⟨word, rest, isWord, sameLength, shape⟩ := decode_eq_ok_iff_append.mp success
  subst shape
  exact decode_eq_ok_iff_append.mpr
    ⟨word, rest ++ later, isWord, sameLength, (List.append_assoc word rest later).symm⟩

theorem decode_append_of_malformed {input : Bytes} (refusal : decode input = .error .malformed)
    (later : Bytes) : decode (input ++ later) = .error .malformed := by
  rw [decode_eq_error_iff] at refusal ⊢
  exact Response.stable_rule.malformed_append refusal later

theorem decode_take_append {input : Bytes} {decoded : Decoded}
    (success : decode input = .ok decoded) (later : Bytes) :
    decode (input.take decoded.consumed ++ later) = .ok decoded := by
  obtain ⟨word, rest, isWord, sameLength, shape⟩ := decode_eq_ok_iff_append.mp success
  subst shape
  rw [← sameLength, List.take_left]
  exact decode_eq_ok_iff_append.mpr ⟨word, later, isWord, sameLength, rfl⟩

theorem decode_take_consumed {input : Bytes} {decoded : Decoded}
    (success : decode input = .ok decoded) :
    decode (input.take decoded.consumed) = .ok decoded := by
  have alone := decode_take_append success []
  rw [List.append_nil] at alone
  exact alone

/-- Without some of the bytes behind a response the decoder still finds the response. -/
theorem decode_of_le_prefix {input start : Bytes} {decoded : Decoded}
    (success : decode input = .ok decoded) (starts : start <+: input)
    (holds : decoded.consumed ≤ start.length) : decode start = .ok decoded := by
  rcases starts with ⟨later, shape⟩
  subst shape
  have sameStart :
      (start ++ later).take decoded.consumed ++ start.drop decoded.consumed = start := by
    rw [List.take_append_of_le_length holds, List.take_append_drop]
  rw [← sameStart]
  exact decode_take_append success (start.drop decoded.consumed)

/-- A buffer that ends before the response does is neither accepted nor refused. -/
theorem decode_of_prefix {input start : Bytes} {decoded : Decoded}
    (success : decode input = .ok decoded) (starts : start <+: input)
    (shorter : start.length < decoded.consumed) :
    ∃ needed, decode start = .error (.incomplete needed) := by
  rcases starts with ⟨later, shape⟩
  subst shape
  cases answer : decode start with
  | ok earlier =>
    have sameDecoded := decode_append_of_ok answer later
    rw [success] at sameDecoded
    cases sameDecoded
    have inside := consumed_le answer
    omega
  | error failure =>
    cases failure with
    | malformed =>
      have refusal := decode_append_of_malformed answer later
      rw [success] at refusal
      cases refusal
    | incomplete needed => exact ⟨needed, rfl⟩

/-- Definite answers are final, and they depend on no byte after the response. -/
theorem decode_definite_answers_final (input later : Bytes) :
    (∀ decoded, decode input = .ok decoded →
      1 ≤ decoded.consumed ∧ decoded.consumed ≤ input.length ∧
        decode (input.take decoded.consumed ++ later) = .ok decoded) ∧
    (decode input = .error .malformed → decode (input ++ later) = .error .malformed) ∧
    ∀ decoded, decode input = .ok decoded →
      ∀ start, start <+: input.take decoded.consumed → start ≠ input.take decoded.consumed →
        ∃ needed, decode start = .error (.incomplete needed) := by
  refine ⟨?_, ?_, ?_⟩
  · intro decoded success
    exact ⟨consumed_pos success, consumed_le success, decode_take_append success later⟩
  · intro refusal
    exact decode_append_of_malformed refusal later
  · intro decoded success start starts strict
    have shorter : start.length < (input.take decoded.consumed).length := by
      by_contra notShorter
      exact strict (starts.eq_of_length_le (Nat.not_lt.mp notShorter))
    rw [List.length_take_of_le (consumed_le success)] at shorter
    exact decode_of_prefix success (starts.trans (List.take_prefix _ _)) shorter

/-- One message count in front of another line, cut off in its word, and a line of no known kind. -/
theorem decode_definite_answers_final_count :
    (decode (ascii "* 1 EXISTS\r\n" ++ ascii "* 2 REC") =
        .ok { response := .mailbox (.exists 1), consumed := 12 } ∧
      ∃ needed, decode (ascii "* 1 EXI") = .error (.incomplete needed)) ∧
    decode (ascii "* SEARCH" ++ ascii " 2\r\n") = .error .malformed := by
  have success : decode (ascii "* 1 EXISTS\r\n* BYE") =
      .ok { response := .mailbox (.exists 1), consumed := 12 } := by
    decide +kernel
  have refusal : decode (ascii "* SEARCH") = .error .malformed := by
    decide +kernel
  obtain ⟨acceptances, -, beginnings⟩ :=
    decode_definite_answers_final (ascii "* 1 EXISTS\r\n* BYE") (ascii "* 2 REC")
  obtain ⟨-, refusals, -⟩ := decode_definite_answers_final (ascii "* SEARCH") (ascii " 2\r\n")
  refine ⟨⟨?_, ?_⟩, refusals refusal⟩
  · exact (acceptances _ success).2.2
  · exact beginnings _ success (ascii "* 1 EXI") (by decide +kernel) (by decide +kernel)

end Imap
