import Imap.Proofs.Grammar.ResponseReading
import Imap.Proofs.Rule.Series

/-!
# Lists are greedy

A list takes every item that it can and never gives one back. It is malformed only at its first
item. After that it ends in front of the place where the next item is malformed, and a separator read
in vain stays unread; where the next item or its separator has not arrived, the whole list waits for
what they wait for.
-/

namespace Imap.Rule

variable {α : Type}

/-- Both kinds of lists answer what the series of their items tells. Items without a separator are
asked to take a byte each, since a list of them would not end otherwise. -/
theorem lists_greedy (item : Rule α) (input : Bytes) :
    ((∀ values rest, (spaced item).run input = .matched values rest ↔
        Series item [Byte.space] input values rest ∧ rest ≠ [] ∧
          ∀ later, rest = Byte.space :: later → item.run later = .failed .malformed) ∧
      ((spaced item).run input = .failed .malformed ↔ item.run input = .failed .malformed) ∧
      ∀ needed, (spaced item).run input = .failed (.incomplete needed) ↔
        item.run input = .failed (.incomplete needed) ∨
          ∃ values rest, Series item [Byte.space] input values rest ∧
            (rest = [] ∧ needed = none ∨
              ∃ later, rest = Byte.space :: later ∧
                item.run later = .failed (.incomplete needed))) ∧
    (item.Consuming →
      (∀ values rest, (many item).run input = .matched values rest ↔
        Series item [] input values rest ∧ item.run rest = .failed .malformed) ∧
      ((many item).run input = .failed .malformed ↔ item.run input = .failed .malformed) ∧
      ∀ needed, (many item).run input = .failed (.incomplete needed) ↔
        item.run input = .failed (.incomplete needed) ∨
          ∃ values rest, Series item [] input values rest ∧
            item.run rest = .failed (.incomplete needed)) := by
  constructor
  · have repeats := repeats_spaced item
    refine ⟨fun values rest => ?_, ?_, fun needed => ?_⟩
    · rw [repeats.run_eq_iff, answers_matched_iff, run_behind_space_eq_malformed_iff]
    · rw [repeats.run_eq_iff, answers_malformed_iff]
    · simp only [repeats.run_eq_iff, answers_incomplete_iff, run_behind_space_eq_incomplete_iff]
  · intro consumes
    have repeats := repeats_many consumes
    refine ⟨fun values rest => ?_, ?_, fun needed => ?_⟩
    · rw [repeats.run_eq_iff, answers_matched_iff, run_behind_nil]
    · rw [repeats.run_eq_iff, answers_malformed_iff]
    · simp only [repeats.run_eq_iff, answers_incomplete_iff, run_behind_nil]

/-- Flags in front of a space that no flag follows, and capabilities in front of the line end and
cut off behind a space. -/
theorem lists_greedy_flags_capabilities :
    (spaced Flag.rule).run (ascii "\\Seen Junk )") =
      .matched [ascii "\\Seen", ascii "Junk"] (ascii " )") ∧
    Response.capabilityNameRule.Consuming ∧
    (many Response.capabilityNameRule).run (ascii " IDLE ID\r\n") =
      .matched [ascii "IDLE", ascii "ID"] Bytes.crlf ∧
    (many Response.capabilityNameRule).run (ascii " IDLE ") = .failed (.incomplete none) := by
  have consumes := Response.consuming_capabilityNameRule
  refine ⟨?_, consumes, ?_, ?_⟩
  · have flagsMatch := (lists_greedy Flag.rule (ascii "\\Seen Junk )")).1.1
    rw [flagsMatch]
    have seen : Flag.rule.run (ascii "\\Seen Junk )") =
        .matched (ascii "\\Seen") ([Byte.space] ++ ascii "Junk )") := by decide +kernel
    have junk : Flag.rule.run (ascii "Junk )") = .matched (ascii "Junk") (ascii " )") := by
      decide +kernel
    refine ⟨.more seen (.last junk), by decide, fun later same => ?_⟩
    obtain rfl : ascii ")" = later := (List.cons.inj same).2
    decide +kernel
  · have namesMatch := ((lists_greedy Response.capabilityNameRule (ascii " IDLE ID\r\n")).2
      consumes).1
    rw [namesMatch]
    have idle : Response.capabilityNameRule.run (ascii " IDLE ID\r\n") =
        .matched (ascii "IDLE") ([] ++ ascii " ID\r\n") := by decide +kernel
    have id : Response.capabilityNameRule.run (ascii " ID\r\n") =
        .matched (ascii "ID") Bytes.crlf := by decide +kernel
    exact ⟨.more idle (.last id), by decide +kernel⟩
  · have namesWait := ((lists_greedy Response.capabilityNameRule (ascii " IDLE ")).2 consumes).2.2
    rw [namesWait]
    have idle : Response.capabilityNameRule.run (ascii " IDLE ") =
        .matched (ascii "IDLE") (ascii " ") := by decide +kernel
    exact Or.inr ⟨_, _, .last idle, by decide +kernel⟩

end Imap.Rule
