import Imap.Proofs.Numbers

/-!
# Strings that are written and read back

A string is written in quotes unless it holds a line end or a zero byte; then it is written as a
literal, which announces its length. The writer announces any length, the reader takes one of 32
bits. So every string is read back as it was written, with one exception: a literal from `2 ^ 32`
bytes on is refused at its length, before a byte of its content is looked at.
-/

namespace Imap

open Spelling

/-! ## A length that does not fit -/

section Overflow

variable {run rest : Bytes} {number : Nat}

theorem Literal.run_rule_of_overflow (isNumeral : run ∈ numeral number)
    (follows : rest ∈ Bytes.startingOutside Byte.isDigit) (isLarge : UInt32.size ≤ number) :
    rule.run (ascii "\x7b" ++ (run ++ rest)) = .failed .malformed := by
  have overflows := Number.exact_rule.overflows isNumeral follows isLarge
  unfold rule
  rw [Rule.run_bind_expect_append]
  exact Rule.run_bind_failed overflows _

/-- No quoted string begins as a literal does. -/
theorem ByteString.run_rule_of_overflow (isNumeral : run ∈ numeral number)
    (follows : rest ∈ Bytes.startingOutside Byte.isDigit) (isLarge : UInt32.size ≤ number) :
    rule.run (ascii "\x7b" ++ (run ++ rest)) = .failed .malformed := by
  have notQuoted : Quoted.rule.run (ascii "\x7b" ++ (run ++ rest)) = .failed .malformed :=
    ((Rule.beginsWith_expect Byte.doubleQuote []).bind _).run_outside
      (Bytes.cons_mem_startingOutside (by decide) _)
  have notLiteral := Literal.run_rule_of_overflow isNumeral follows isLarge
  refine Rule.run_firstOf_eq_malformed_iff.mpr ?_
  simp only [forms, List.forall_mem_cons]
  exact ⟨notQuoted, notLiteral, List.forall_mem_nil _⟩

/-- The word for a missing string does not begin as a literal does. -/
theorem NullableString.run_rule_of_overflow (isNumeral : run ∈ numeral number)
    (follows : rest ∈ Bytes.startingOutside Byte.isDigit) (isLarge : UInt32.size ≤ number) :
    rule.run (ascii "\x7b" ++ (run ++ rest)) = .failed .malformed := by
  have notMissing : (Rule.keyword nil (none : Option Bytes)).run
      (ascii "\x7b" ++ (run ++ rest)) = .failed .malformed :=
    ((Rule.beginsWith_expect 78 (ascii "IL")).bind _).run_outside
      (Bytes.cons_mem_startingOutside (by decide) _)
  have notPresent := ByteString.run_rule_of_overflow isNumeral follows isLarge
  refine Rule.run_firstOf_eq_malformed_iff.mpr ?_
  simp only [forms, List.forall_mem_cons]
  exact ⟨notMissing, Rule.run_map_eq_failed_iff.mpr notPresent, List.forall_mem_nil _⟩

end Overflow

namespace ByteString

/-! ## The form that is written -/

/-- A line end or a zero byte in a string keeps it from being written in quotes. -/
def Unquotable (value : Bytes) : Prop :=
  Byte.carriageReturn ∈ value ∨ Byte.lineFeed ∈ value ∨ Byte.nul ∈ value

theorem any_needsLiteral_iff {value : Bytes} :
    value.any needsLiteral = true ↔ Unquotable value := by
  have needsIff : ∀ byte, needsLiteral byte = true ↔
      byte = Byte.carriageReturn ∨ byte = Byte.lineFeed ∨ byte = Byte.nul := by
    intro byte
    simp only [needsLiteral, Byte.isLineEnd, Bool.or_eq_true, beq_iff_eq, or_assoc]
  simp only [List.any_eq_true, needsIff, Unquotable, and_or_left, exists_or, exists_eq_right]

theorem writable_iff {value : Bytes} :
    Writable value ↔ ¬ Unquotable value ∨ value.length ≤ 4294967295 := by
  rw [Writable, any_needsLiteral_iff, imp_iff_not_or]

theorem wire_append_of_unquotable {value : Bytes} (unquotable : Unquotable value) (later : Bytes) :
    wire value ++ later = ascii "\x7b" ++
      (Decimal.digits value.length ++ (ascii "\x7d\r\n" ++ value ++ later)) := by
  rw [wire, if_pos (any_needsLiteral_iff.mpr unquotable), Literal.wire]
  simp only [List.append_assoc]

/-- A string is read back as it was written, with what follows it left over; or it is a literal
whose announced length overflows, and then it is refused for that. -/
theorem wire_read_back (value later : Bytes) :
    (¬ Unquotable value ∨ value.length ≤ 4294967295 →
      rule.run (wire value ++ later) = .matched value later ∧
      NullableString.rule.run (NullableString.wire (some value) ++ later) =
        .matched (some value) later) ∧
    (Unquotable value ∧ 4294967296 ≤ value.length →
      rule.run (wire value ++ later) = .failed .malformed ∧
      NullableString.rule.run (NullableString.wire (some value) ++ later) = .failed .malformed ∧
      ∃ content, wire value ++ later = ascii "\x7b" ++ (Decimal.digits value.length ++ content) ∧
        Number.rule.run (Decimal.digits value.length ++ content) = .failed .malformed) := by
  constructor
  · intro fits
    have isWritable := writable_iff.mpr fits
    constructor
    · exact reads_rule.complete (Set.mem_univ value) (wire_mem_spelling isWritable)
        (Set.mem_univ later)
    · refine NullableString.reads_rule.complete (Set.mem_univ (some value)) ?_ (Set.mem_univ later)
      exact NullableString.wire_mem_spelling fun text isText => by cases isText; exact isWritable
  · rintro ⟨unquotable, isLong⟩
    have isNumeral := Decimal.digits_mem_numeral value.length
    have follows : ascii "\x7d\r\n" ++ value ++ later ∈ Bytes.startingOutside Byte.isDigit :=
      Bytes.cons_mem_startingOutside (by decide) _
    have shape := wire_append_of_unquotable unquotable later
    refine ⟨?_, ?_, ascii "\x7d\r\n" ++ value ++ later, shape, ?_⟩
    · rw [shape]
      exact run_rule_of_overflow isNumeral follows isLong
    · rw [NullableString.wire, shape]
      exact NullableString.run_rule_of_overflow isNumeral follows isLong
    · exact Number.exact_rule.overflows isNumeral follows isLong

/-- Zero bytes on both sides of the limit. -/
theorem zeroes_read_back_up_to_limit :
    rule.run (wire (List.replicate 4294967295 Byte.nul) ++ ascii "x") =
      .matched (List.replicate 4294967295 Byte.nul) (ascii "x") ∧
    rule.run (wire (List.replicate 4294967296 Byte.nul) ++ ascii "x") = .failed .malformed := by
  constructor
  · have isShort : (List.replicate 4294967295 Byte.nul).length ≤ 4294967295 :=
      List.length_replicate.le
    exact ((wire_read_back (List.replicate 4294967295 Byte.nul) (ascii "x")).1 (Or.inr isShort)).1
  · have isLong : 4294967296 ≤ (List.replicate 4294967296 Byte.nul).length :=
      List.length_replicate.ge
    have holdsZero : Byte.nul ∈ List.replicate 4294967296 Byte.nul :=
      List.mem_replicate.mpr ⟨by decide, rfl⟩
    have unquotable : Unquotable (List.replicate 4294967296 Byte.nul) := Or.inr (Or.inr holdsZero)
    exact ((wire_read_back (List.replicate 4294967296 Byte.nul) (ascii "x")).2
      ⟨unquotable, isLong⟩).1

end ByteString

end Imap
