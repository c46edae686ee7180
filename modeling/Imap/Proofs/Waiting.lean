import Imap.Proofs.Grammar.Completion
import Imap.Response.Decode

/-!
# What the decoder waits for

A stream that keeps the buffer after an incomplete answer does so on the promise that more bytes can
help. The decoder keeps that promise except behind a number that is already too large and behind a
date that begins like the word for a missing string: both are refused, but only when they have
ended.
-/

namespace Imap

/-- The first value that is too large for a number behind the given bytes. -/
def numberLimit (start : Bytes) : Nat :=
  if ascii "MODSEQ (" <:+ start then 2 ^ 64 else 2 ^ 32

/-- The input ends in a run of digits that no digit precedes, and its value is too large. -/
def EndsInOverflow (input : Bytes) : Prop :=
  ∃ start run, start ++ run = input ∧ run ≠ [] ∧ (∀ byte ∈ run, Byte.isDigit byte = true) ∧
    (∀ last ∈ start.getLast?, Byte.isDigit last = false) ∧ numberLimit start ≤ Decimal.value run

theorem EndsInOverflow.isDigit_getLast? {input : Bytes} (overflows : EndsInOverflow input)
    {last : UInt8} (isLast : input.getLast? = some last) : Byte.isDigit last = true := by
  rcases overflows with ⟨start, run, rfl, nonempty, allDigits, -, -⟩
  rw [List.getLast?_append_of_ne_nil start nonempty] at isLast
  exact allDigits last (List.mem_of_getLast? isLast)

theorem numberLimit_append_singleton (start : Bytes) {mark : UInt8} (notParenthesis : mark ≠ 40) :
    numberLimit (start ++ [mark]) = 2 ^ 32 := by
  have noWord : ¬ ascii "MODSEQ (" <:+ start ++ [mark] := by
    intro isEnd
    rcases isEnd with ⟨front, same⟩
    have sameLast := congrArg List.getLast? same
    have wordLast : (front ++ ascii "MODSEQ (").getLast? = some 40 :=
      List.getLast?_append_of_ne_nil front (by decide)
    rw [wordLast, List.getLast?_concat] at sameLast
    exact notParenthesis (Option.some.inj sameLast).symm
  exact if_neg noWord

theorem numberLimit_append_modseq (start : Bytes) :
    numberLimit (start ++ ascii "MODSEQ (") = 2 ^ 64 :=
  if_pos (List.suffix_append start _)

theorem Decimal.ne_nil_of_le_value {limit : Nat} {run : Bytes} (positive : 0 < limit)
    (tooLarge : limit ≤ Decimal.value run) : run ≠ [] := by
  intro isEmpty
  have noValue : Decimal.value run = 0 := by
    rw [isEmpty]
    rfl
  omega

theorem DeadEnd.endsInOverflow_or_date {input : Bytes} (isDead : DeadEnd input) :
    EndsInOverflow input ∨ ascii "INTERNALDATE N" <:+ input ∨
      ascii "INTERNALDATE NI" <:+ input := by
  cases isDead with
  | @narrow start mark run isMark allDigits tooLarge =>
    have nonempty := Decimal.ne_nil_of_le_value (by decide) tooLarge
    have notParenthesis : mark ≠ 40 := by
      rcases isMark with rfl | rfl <;> decide
    have notDigit : Byte.isDigit mark = false := by
      rcases isMark with rfl | rfl <;> decide
    refine Or.inl ⟨start ++ [mark], run, ?_, nonempty, allDigits, fun last isLast => ?_, ?_⟩
    · rw [List.append_assoc]
      rfl
    · rw [List.getLast?_concat] at isLast
      cases isLast
      exact notDigit
    · rw [numberLimit_append_singleton start notParenthesis]
      exact tooLarge
  | @wide start run allDigits tooLarge =>
    have nonempty := Decimal.ne_nil_of_le_value (by decide) tooLarge
    have wordLast : (start ++ ascii "MODSEQ (").getLast? = some 40 :=
      List.getLast?_append_of_ne_nil start (by decide)
    refine Or.inl ⟨start ++ ascii "MODSEQ (", run, List.append_assoc _ _ _, nonempty, allDigits,
      fun last isLast => ?_, ?_⟩
    · rw [wordLast] at isLast
      cases isLast
      decide
    · rw [numberLimit_append_modseq]
      exact tooLarge
  | date start isBeginning =>
    rcases isBeginning with rfl | rfl
    · exact Or.inr (Or.inl ⟨start, rfl⟩)
    · exact Or.inr (Or.inr ⟨start, rfl⟩)

theorem run_rule_of_decode_eq_incomplete {input : Bytes} {needed : Option Nat}
    (waits : decode input = .error (.incomplete needed)) :
    Response.rule.run input = .failed (.incomplete needed) :=
  decode_eq_error_iff.mp waits

/-- Outside the two shapes, some bytes end every wait with a response. -/
theorem decode_completable_of_incomplete {input : Bytes} {needed : Option Nat}
    (waits : decode input = .error (.incomplete needed)) :
    (∃ later decoded, decode (input ++ later) = .ok decoded) ∨ EndsInOverflow input ∨
      ascii "INTERNALDATE N" <:+ input ∨ ascii "INTERNALDATE NI" <:+ input := by
  have ruleWaits := run_rule_of_decode_eq_incomplete waits
  rcases Response.completable_rule.completes ruleWaits with isDead | ⟨later, response, gives⟩
  · exact Or.inr isDead.endsInOverflow_or_date
  · have ruleMatch := gives [] (Set.mem_univ [])
    rw [List.append_nil] at ruleMatch
    exact Or.inl ⟨later, ⟨response, (input ++ later).length⟩,
      decode_eq_ok_iff.mpr ⟨[], ruleMatch, rfl⟩⟩

/-- A count that is cut off in its word. -/
theorem decode_completable_of_incomplete_count :
    decode (ascii "* 1 EXI") = .error (.incomplete none) ∧
      ∃ later decoded, decode (ascii "* 1 EXI" ++ later) = .ok decoded := by
  have waits : decode (ascii "* 1 EXI") = .error (.incomplete none) := by
    decide +kernel
  refine ⟨waits, ?_⟩
  rcases decode_completable_of_incomplete waits with completable | overflows | isDate | isDate
  · exact completable
  · have endsInLetter : (ascii "* 1 EXI").getLast? = some 73 := by decide +kernel
    exact absurd (overflows.isDigit_getLast? endsInLetter) (by decide)
  · exact absurd isDate (by decide +kernel)
  · exact absurd isDate (by decide +kernel)

end Imap
