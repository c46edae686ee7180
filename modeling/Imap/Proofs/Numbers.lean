import Mathlib.Data.Nat.Digits.Defs
import Imap.Proofs.Grammar.TokenReading
import Imap.Proofs.Grammar.Wire

/-!
# Numbers at their width

A run of digits stands for one natural number, whatever its length. The rules for numbers give that
number or refuse the run because the number does not fit the width; no run is cut down or wraps
around. So what is written for a number of 64 bits is read back at that width, and at 32 bits
exactly if the number fits.
-/

namespace Imap

open Spelling

namespace Decimal

/-- Each digit counts ten times what the digit behind it counts. -/
theorem value_eq_ofDigits (run : Bytes) :
    value run = Nat.ofDigits 10 (run.reverse.map fun digit => digit.toNat - 48) := by
  induction run using List.reverseRecOn with
  | nil => rfl
  | append_singleton run last inductionHypothesis =>
    rw [value_append_digit, inductionHypothesis, List.reverse_append, List.reverse_singleton,
      List.singleton_append, List.map_cons, Nat.ofDigits_cons, Nat.add_comm]

theorem digits_ne_zero_cons {number : Nat} (positive : 0 < number) (later : Bytes) :
    digits number ≠ 48 :: later := by
  fun_induction digits number generalizing later with
  | case1 number isSmall =>
    intro startsZero
    have isZero : digit number = 48 := (List.cons_eq_cons.mp startsZero).1
    have asNumber := toNat_digit isSmall
    rw [isZero] at asNumber
    change 48 = 48 + number at asNumber
    omega
  | case2 number isLarge inductionHypothesis =>
    intro startsZero
    have earlierPositive : 0 < number / 10 := Nat.div_pos (Nat.not_lt.mp isLarge) (by decide)
    obtain ⟨nonempty, -⟩ := digits_mem_numeral (number / 10)
    obtain ⟨first, others, shape⟩ := List.exists_cons_of_ne_nil nonempty
    rw [shape, List.cons_append] at startsZero
    obtain ⟨isZero, -⟩ := List.cons_eq_cons.mp startsZero
    rw [isZero] at shape
    exact inductionHypothesis earlierPositive others shape

/-- A zero in front is the whole of what is written. -/
theorem eq_nil_of_digits_eq_zero_cons {number : Nat} {later : Bytes}
    (startsZero : digits number = 48 :: later) : later = [] := by
  rcases Nat.eq_zero_or_pos number with isZero | positive
  · have onlyZero : digits 0 = [48] := by
      rw [digits]
      rfl
    rw [isZero, onlyZero] at startsZero
    exact (List.cons_eq_cons.mp startsZero).2.symm
  · exact absurd startsZero (digits_ne_zero_cons positive later)

end Decimal

namespace Number

/-- The rule reads the numbers below a bound exactly. A run of digits that has ended gives its
number or, from the bound on, is malformed; a run that may go on is waited for. -/
structure Exact {α : Type} (rule : Rule α) (toNat : α → Nat) (bound : Nat) : Prop where
  fits : ∀ {run rest : Bytes} {number : Nat}, run ∈ numeral number →
    rest ∈ Bytes.startingOutside Byte.isDigit → number < bound →
      ∃ value, toNat value = number ∧ rule.run (run ++ rest) = .matched value rest
  overflows : ∀ {run rest : Bytes} {number : Nat}, run ∈ numeral number →
    rest ∈ Bytes.startingOutside Byte.isDigit → bound ≤ number →
      rule.run (run ++ rest) = .failed .malformed
  goes_on : ∀ {run : Bytes} {number : Nat}, run ∈ numeral number →
    rule.run run = .failed (.incomplete none)

variable {α : Type} {accept : Nat → Option α} {toNat : α → Nat} {bound : Nat}

/-- A width is exact if it takes the numbers below its bound, each as itself. -/
theorem exact_accepting
    (accepts : ∀ {number : Nat} {value : α}, accept number = some value ↔ number = toNat value)
    (refuses : ∀ {number : Nat}, accept number = none ↔ bound ≤ number) :
    Exact (digitRun.accepting fun digits => accept (Decimal.value digits)) toNat bound := by
  have runMatch : ∀ {run rest : Bytes} {number : Nat}, run ∈ numeral number →
      rest ∈ Bytes.startingOutside Byte.isDigit → digitRun.run (run ++ rest) = .matched run rest :=
    fun isNumeral follows =>
      Rule.run_bytesIn_eq_matched_iff.mpr ⟨isNumeral.1, isNumeral.2.1, follows, rfl⟩
  constructor
  · intro run rest number isNumeral follows isBelow
    obtain ⟨value, accepted⟩ : ∃ value, accept number = some value := by
      refine Option.ne_none_iff_exists'.mp fun refused => ?_
      exact absurd (refuses.mp refused) (Nat.not_le.mpr isBelow)
    refine ⟨value, (accepts.mp accepted).symm, Rule.run_accepting_eq_matched_iff.mpr ?_⟩
    have hasValue : Decimal.value run = number := isNumeral.2.2
    exact ⟨run, runMatch isNumeral follows, hasValue ▸ accepted⟩
  · intro run rest number isNumeral follows notBelow
    have hasValue : Decimal.value run = number := isNumeral.2.2
    have refused : accept (Decimal.value run) = none := refuses.mpr (hasValue ▸ notBelow)
    exact Rule.run_accepting_of_refused (runMatch isNumeral follows) refused
  · intro run number isNumeral
    rw [Rule.run_accepting_eq_incomplete_iff]
    exact Rule.run_bytesIn_eq_incomplete_iff.mpr ⟨rfl, isNumeral.2.1⟩

theorem exact_rule : Exact rule UInt32.toNat UInt32.size :=
  exact_accepting fitting32_eq_some_iff fitting32_eq_none_iff

theorem exact_wideRule : Exact wideRule UInt64.toNat UInt64.size :=
  exact_accepting fitting64_eq_some_iff fitting64_eq_none_iff

theorem run_wideRule_digits (number : UInt64) {rest : Bytes}
    (follows : rest ∈ Bytes.startingOutside Byte.isDigit) :
    wideRule.run (Decimal.digits number.toNat ++ rest) = .matched number rest :=
  reads_wideRule.complete (Set.mem_univ number) (Decimal.digits_mem_numeral number.toNat) follows

/-- What is written for a number is read as that number, unless it is too large for the rule. -/
theorem Exact.exists_run_digits_iff {rule : Rule α} (exact : Exact rule toNat bound)
    (bounded : ∀ value, toNat value < bound) {number : Nat} {rest : Bytes}
    (follows : rest ∈ Bytes.startingOutside Byte.isDigit) :
    (∃ value, toNat value = number ∧
      rule.run (Decimal.digits number ++ rest) = .matched value rest) ↔ number < bound := by
  constructor
  · rintro ⟨value, sameNumber, -⟩
    rw [← sameNumber]
    exact bounded value
  · exact exact.fits (Decimal.digits_mem_numeral number) follows

/-- Both rules for numbers are exact at their width, and they read what is written for a number. The
runs of digits that they read are those of any length that stand for the number, place by place;
what is written is the one without zeros in front. -/
theorem exact_at_every_width :
    (∀ run number, run ∈ numeral number ↔
      run ≠ [] ∧ (∀ byte ∈ run, Byte.isDigit byte = true) ∧
        Nat.ofDigits 10 (run.reverse.map fun digit => digit.toNat - 48) = number) ∧
    Exact rule UInt32.toNat 4294967296 ∧
    Exact wideRule UInt64.toNat 18446744073709551616 ∧
    ∀ number : UInt64,
      Decimal.digits number.toNat ∈ numeral number.toNat ∧
      (∀ later, Decimal.digits number.toNat = 48 :: later → later = []) ∧
      ∀ rest ∈ Bytes.startingOutside Byte.isDigit,
        wideRule.run (Decimal.digits number.toNat ++ rest) = .matched number rest ∧
        ((∃ narrow : UInt32, narrow.toNat = number.toNat ∧
            rule.run (Decimal.digits number.toNat ++ rest) = .matched narrow rest) ↔
          number.toNat < 4294967296) := by
  refine ⟨fun run number => ?_, exact_rule, exact_wideRule, fun number => ⟨?_, ?_, ?_⟩⟩
  · rw [← Decimal.value_eq_ofDigits]
    rfl
  · exact Decimal.digits_mem_numeral number.toNat
  · exact fun later startsZero => Decimal.eq_nil_of_digits_eq_zero_cons startsZero
  · intro rest follows
    refine ⟨run_wideRule_digits number follows, ?_⟩
    exact exact_rule.exists_run_digits_iff UInt32.toNat_lt follows

end Number

end Imap
