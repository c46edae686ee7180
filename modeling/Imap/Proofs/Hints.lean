import Imap.Proofs.Decoding
import Imap.Proofs.Grammar.Counting

/-!
# The missing bytes that the decoder counts

When a literal has announced its length, the decoder says how many bytes are missing. A reader that
asks for so many bytes at once gets an answer to every part of what it receives. The count is that
of the literal at the end of the buffer, it goes down by one with every byte, and when it reaches
zero the decoder waits for what comes after the literal, whatever the bytes are. So no response ends
within the bytes that were counted, and a reader that waits for all of them waits for no byte of the
next response.
-/

namespace Imap

section Counted

variable {input : Bytes} {needed : Nat}

/-- Fewer bytes than were counted lower the count and change nothing else. -/
theorem decode_append_of_lt_needed
    (waits : decode input = .error (.incomplete (some needed))) {later : Bytes}
    (fewer : later.length < needed) :
    decode (input ++ later) = .error (.incomplete (some (needed - later.length))) := by
  rw [decode_eq_error_iff] at waits ⊢
  exact Response.stable_rule.incomplete_append waits fewer

/-- When the counted bytes are there, the decoder waits on, now without a count. -/
theorem decode_append_of_eq_needed
    (waits : decode input = .error (.incomplete (some needed))) {missing : Bytes}
    (isAll : missing.length = needed) :
    decode (input ++ missing) = .error (.incomplete none) := by
  subst isAll
  rw [decode_eq_error_iff] at waits ⊢
  exact Response.outlastsCounts_rule input missing waits

theorem decode_append_of_le_needed
    (waits : decode input = .error (.incomplete (some needed))) {later : Bytes}
    (notMore : later.length ≤ needed) :
    ∃ left, decode (input ++ later) = .error (.incomplete left) := by
  by_cases fewer : later.length < needed
  · exact ⟨_, decode_append_of_lt_needed waits fewer⟩
  · exact ⟨none, decode_append_of_eq_needed waits (Nat.le_antisymm notMore (Nat.not_lt.mp fewer))⟩

/-- The response goes on behind the bytes that were counted. -/
theorem length_add_needed_lt_consumed
    (waits : decode input = .error (.incomplete (some needed))) {later : Bytes} {decoded : Decoded}
    (success : decode (input ++ later) = .ok decoded) :
    input.length + needed < decoded.consumed := by
  by_contra notLess
  have inside := consumed_le success
  have starts : input ++ later.take needed <+: input ++ later :=
    (List.prefix_append_right_inj input).mpr (List.take_prefix needed later)
  have holds : decoded.consumed ≤ (input ++ later.take needed).length := by
    simp only [List.length_append, List.length_take] at inside ⊢
    omega
  have earlier := decode_of_le_prefix success starts holds
  obtain ⟨left, stillWaits⟩ := decode_append_of_le_needed waits (List.length_take_le needed later)
  rw [earlier] at stillWaits
  cases stillWaits

end Counted

/-- A count of missing bytes is that of the literal which the input ends in, and no response is
complete, or refused, before one byte more has arrived than was counted. -/
theorem decode_hint_exact {input : Bytes} {needed : Nat}
    (waits : decode input = .error (.incomplete (some needed))) :
    (1 ≤ needed ∧ needed ≤ 4294967295) ∧
    (∃ start digits body,
      start ++ ascii "\x7b" ++ digits ++ ascii "\x7d\r\n" ++ body = input ∧
        digits ≠ [] ∧ (∀ digit ∈ digits, Byte.isDigit digit = true) ∧
        Decimal.value digits = body.length + needed) ∧
    (∀ later : Bytes, later.length < needed →
      decode (input ++ later) = .error (.incomplete (some (needed - later.length)))) ∧
    (∀ later : Bytes, later.length = needed →
      decode (input ++ later) = .error (.incomplete none)) ∧
    ∀ (later : Bytes) (decoded : Decoded), decode (input ++ later) = .ok decoded →
      input.length + needed < decoded.consumed := by
  have ruleWaits := decode_eq_error_iff.mp waits
  have positive : 0 < needed := Response.stable_rule.needed_pos ruleWaits
  obtain ⟨start, digits, body, shape, isNumeral, fits⟩ :=
    (Response.counts_rule.counted ruleWaits).announced
  have bounded : needed ≤ 4294967295 := by
    have widthBound : body.length + needed < 4294967296 := fits
    omega
  refine ⟨⟨positive, bounded⟩, ⟨start, digits, body, shape, isNumeral⟩, ?_, ?_, ?_⟩
  · exact fun later fewer => decode_append_of_lt_needed waits fewer
  · exact fun later isAll => decode_append_of_eq_needed waits isAll
  · exact fun later decoded success => length_add_needed_lt_consumed waits success

/-- Ten of the twenty bytes of a message are missing. A line end among them ends nothing. -/
theorem decode_hint_exact_message :
    decode (ascii "* 1 FETCH (RFC822 \x7b20\x7d\r\n0123456789") =
        .error (.incomplete (some 10)) ∧
      decode (ascii "* 1 FETCH (RFC822 \x7b20\x7d\r\n0123456789" ++ ascii ")\r\n") =
        .error (.incomplete (some 7)) ∧
      decode (ascii "* 1 FETCH (RFC822 \x7b20\x7d\r\n0123456789" ++ ascii ")\r\n* 2 EXP") =
        .error (.incomplete none) := by
  have waits : decode (ascii "* 1 FETCH (RFC822 \x7b20\x7d\r\n0123456789") =
      .error (.incomplete (some 10)) := by
    decide +kernel
  obtain ⟨-, -, countsDown, ends, -⟩ := decode_hint_exact waits
  exact ⟨waits, countsDown (ascii ")\r\n") (by decide +kernel),
    ends (ascii ")\r\n* 2 EXP") (by decide +kernel)⟩

end Imap
