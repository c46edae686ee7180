import Imap.Proofs.ConditionLine

/-!
# Conditions that are written and decoded

A program may put a condition together that no server sent, and its text may be empty. Decoding what
is written for it gives the condition back with an empty text replaced by none. Written once more,
that is the same line, except where an empty text stands behind a code: the text is empty, yet the
space in front of it is written, and the decoded condition has no text to write a space for.
-/

namespace Imap

open Spelling

/-- The rule for codes gives the well-formed codes. -/
theorem ResponseCode.wellFormed_iff_exists_run {code : ResponseCode} :
    code.WellFormed ↔ ∃ input rest, rule.run input = .matched code rest := by
  constructor
  · intro isWellFormed
    exact ⟨code.wire ++ [], [], reads_rule.complete (Set.mem_univ code)
      (wire_mem_spelling isWellFormed) (Set.mem_univ [])⟩
  · rintro ⟨input, rest, codeMatch⟩
    obtain ⟨-, word, isWord, -⟩ := reads_rule.sound codeMatch
    exact wellFormed_of_mem_spelling isWord

namespace Remark

variable {remark : Remark}

/-- The remark with no text in the place of an empty one. -/
def withoutEmptyText (remark : Remark) : Remark :=
  { remark with text := remark.text.bind presentText }

/-- A remark that stays on its line and keeps its shape there: its code is one that the rule for
codes gives, and without a code its text does not look like one. -/
structure Printable (remark : Remark) : Prop where
  code : ∀ code ∈ remark.code, ∃ input rest, ResponseCode.rule.run input = .matched code rest
  onLine : ∀ text ∈ remark.text, ∀ byte ∈ text, Byte.isLineEnd byte = false
  noCode : remark.code = none → ∀ text ∈ remark.text, ∀ code rest,
    ResponseCode.rule.run (text ++ Bytes.crlf) ≠ .matched code rest

/-- An empty text behind a code. -/
def EmptyBehindCode (remark : Remark) : Prop :=
  remark.code.isSome ∧ remark.text = some []

theorem presentText_eq_some_iff {text present : Bytes} :
    presentText text = some present ↔ text ≠ [] ∧ text = present := by
  rw [presentText]
  split <;> simp_all

theorem Printable.wellFormed_withoutEmptyText (isPrintable : remark.Printable) :
    remark.withoutEmptyText.WellFormed := by
  have isWritten : ∀ present ∈ remark.withoutEmptyText.text,
      present ∈ remark.text ∧ present ≠ [] := by
    intro present isPresent
    obtain ⟨text, isText, nonempty⟩ := Option.bind_eq_some_iff.mp isPresent
    obtain ⟨notEmpty, rfl⟩ := presentText_eq_some_iff.mp nonempty
    exact ⟨isText, notEmpty⟩
  apply wellFormed_iff.mpr
  constructor
  · intro code isCode
    exact ResponseCode.wellFormed_iff_exists_run.mpr (isPrintable.code code isCode)
  constructor
  · intro present isPresent
    obtain ⟨isText, notEmpty⟩ := isWritten present isPresent
    exact ⟨notEmpty, isPrintable.onLine present isText⟩
  · intro isAbsent present isPresent
    exact isPrintable.noCode isAbsent present (isWritten present isPresent).1

theorem printable_emptyBehindCode {code : ResponseCode} (isWellFormed : code.WellFormed) :
    Printable { code := some code, text := some [] } where
  code := by
    rintro _ ⟨⟩
    exact ResponseCode.wellFormed_iff_exists_run.mp isWellFormed
  onLine := by
    rintro _ ⟨⟩
    exact List.forall_mem_nil _
  noCode isAbsent := by cases isAbsent

/-! ## The written form with and without an empty text -/

theorem EmptyBehindCode.exists_code (emptyBehindCode : remark.EmptyBehindCode) :
    ∃ code, remark = { code := some code, text := some [] } := by
  rcases remark with ⟨code, text⟩
  obtain ⟨hasCode, isEmpty⟩ := emptyBehindCode
  obtain ⟨present, rfl⟩ := Option.isSome_iff_exists.mp hasCode
  cases isEmpty
  exact ⟨present, rfl⟩

/-- Without a code an empty text is written as no text is. -/
theorem wire_withoutEmptyText (notBehindCode : ¬ remark.EmptyBehindCode) :
    remark.withoutEmptyText.wire = remark.wire := by
  rcases remark with ⟨code, text⟩
  cases text with
  | none => rfl
  | some text =>
    by_cases isEmpty : text = []
    · subst isEmpty
      cases code with
      | none => rfl
      | some code => exact absurd ⟨rfl, rfl⟩ notBehindCode
    · have isPresent : presentText text = some text :=
        presentText_eq_some_iff.mpr ⟨isEmpty, rfl⟩
      simp only [withoutEmptyText, Option.bind_some, isPresent]

/-- Behind a code an empty text is written as a space. -/
theorem wire_of_emptyBehindCode (emptyBehindCode : remark.EmptyBehindCode) :
    remark.wire = remark.withoutEmptyText.wire ++ [Byte.space] := by
  obtain ⟨code, rfl⟩ := emptyBehindCode.exists_code
  exact List.append_nil (code.wire ++ [Byte.space])

theorem wire_mem_spelling_withoutEmptyText (isPrintable : remark.Printable) :
    remark.wire ∈ remark.withoutEmptyText.spelling := by
  have isWellFormed := isPrintable.wellFormed_withoutEmptyText
  by_cases emptyBehindCode : remark.EmptyBehindCode
  · rw [wire_of_emptyBehindCode emptyBehindCode]
    obtain ⟨code, rfl⟩ := emptyBehindCode.exists_code
    have isCode := ResponseCode.wire_mem_spelling (isWellFormed.code code rfl)
    have spaceOnLine : ∀ byte ∈ [Byte.space], Byte.isLineEnd byte = false :=
      List.forall_mem_singleton.mpr (by decide)
    have isSpelled := mem_spelling_of_code isCode spaceOnLine
    have nothingBehind : presentText (behindCode [Byte.space]) = none := by
      simp [behindCode, presentText]
    rw [nothingBehind] at isSpelled
    exact isSpelled
  · rw [← wire_withoutEmptyText emptyBehindCode]
    exact wire_mem_spelling isWellFormed

end Remark

/-- The condition with no text in the place of an empty one. -/
def Condition.withoutEmptyText (condition : Condition) : Condition :=
  { condition with remark := condition.remark.withoutEmptyText }

namespace Response

variable {tag : Option Bytes} {condition : Condition}

/-- The response that tells a condition: with a tag it ends a command. -/
def ofCondition (tag : Option Bytes) (condition : Condition) : Response :=
  match tag with
  | none => .data condition
  | some name => .done name condition

/-- What is written in front of a condition. -/
def front (tag : Option Bytes) : Bytes :=
  match tag with
  | none => untaggedMark
  | some name => name ++ [Byte.space]

theorem line_ofCondition :
    (ofCondition tag condition).line =
      front tag ++ (condition.status.word ++ [Byte.space] ++ condition.remark.wire) := by
  cases tag <;> rfl

theorem wire_mem_spelling_ofCondition (isTag : ∀ name ∈ tag, IsTag name)
    (isPrintable : condition.remark.Printable) :
    (ofCondition tag condition).wire ∈
      (ofCondition tag condition.withoutEmptyText).spelling := by
  have isRemark := Remark.wire_mem_spelling_withoutEmptyText isPrintable
  have isCondition : condition.wire ∈ condition.withoutEmptyText.spelling :=
    Condition.mem_spelling rfl isRemark
  cases tag with
  | none => exact mem_spelling_data isCondition
  | some name => exact mem_spelling_done (isTag name rfl) isCondition

/-- What is written for a condition decodes to it, less an empty text. It is what is written for the
decoded condition too, but where an empty text stands behind a code: there it has one more space. -/
theorem decode_wire_ofCondition (tag : Option Bytes) (condition : Condition)
    (isTag : ∀ name ∈ tag, IsTag name) (isPrintable : condition.remark.Printable) :
    decode (ofCondition tag condition).wire =
      .ok {
        response := ofCondition tag condition.withoutEmptyText
        consumed := (ofCondition tag condition).wire.length } ∧
    (¬ condition.remark.EmptyBehindCode →
      (ofCondition tag condition.withoutEmptyText).wire = (ofCondition tag condition).wire) ∧
    (condition.remark.EmptyBehindCode →
      (ofCondition tag condition).wire =
        (ofCondition tag condition.withoutEmptyText).line ++ [Byte.space] ++ Bytes.crlf) := by
  constructor
  · have isSpelled := wire_mem_spelling_ofCondition isTag isPrintable
    have success := decode_of_mem_spelling isSpelled []
    rw [List.append_nil] at success
    exact success
  constructor
  · intro notBehindCode
    have sameRemark := Remark.wire_withoutEmptyText notBehindCode
    rw [wire, wire, line_ofCondition, line_ofCondition, Condition.withoutEmptyText, sameRemark]
  · intro behindCode
    have spaceBehind := Remark.wire_of_emptyBehindCode behindCode
    rw [wire, line_ofCondition, line_ofCondition, Condition.withoutEmptyText, spaceBehind]
    simp only [List.append_assoc]

/-- An empty text behind a code, written, decoded and written again. -/
theorem decode_wire_ofCondition_read_only :
    decode (ascii "A1 OK [READ-ONLY] \r\n") =
      .ok {
        response := .done (ascii "A1") {
          status := .ok
          remark := { code := some .readOnly, text := none } }
        consumed := 20 } ∧
    (done (ascii "A1") {
      status := .ok
      remark := { code := some .readOnly, text := none } }).line ++ [Byte.space] ++ Bytes.crlf =
        ascii "A1 OK [READ-ONLY] \r\n" := by
  have isTag : ∀ name ∈ some (ascii "A1"), IsTag name := by
    decide +kernel
  obtain ⟨success, -, spaceBehind⟩ := decode_wire_ofCondition (some (ascii "A1"))
    { status := .ok, remark := { code := some .readOnly, text := some [] } }
    isTag (Remark.printable_emptyBehindCode trivial)
  have isWire : (ofCondition (some (ascii "A1")) {
      status := .ok
      remark := { code := some .readOnly, text := some [] } }).wire =
        ascii "A1 OK [READ-ONLY] \r\n" := by
    decide +kernel
  rw [isWire] at success spaceBehind
  exact ⟨success, (spaceBehind ⟨rfl, rfl⟩).symm⟩

/-- Writing a decoded condition does not always give the line that was written for it. -/
theorem not_forall_wire_withoutEmptyText_eq :
    ¬ ∀ (tag : Option Bytes) (condition : Condition),
      (∀ name ∈ tag, IsTag name) → condition.remark.Printable →
        decode (ofCondition tag condition).wire =
          .ok {
            response := ofCondition tag condition.withoutEmptyText
            consumed := (ofCondition tag condition).wire.length } ∧
        (ofCondition tag condition.withoutEmptyText).wire = (ofCondition tag condition).wire := by
  intro always
  have isTag : ∀ name ∈ some (ascii "A1"), IsTag name := by
    decide +kernel
  obtain ⟨-, sameWire⟩ := always (some (ascii "A1"))
    { status := .ok, remark := { code := some .readOnly, text := some [] } }
    isTag (Remark.printable_emptyBehindCode trivial)
  have differentWire : (done (ascii "A1") {
        status := .ok
        remark := { code := some .readOnly, text := none } }).wire ≠
      (done (ascii "A1") {
        status := .ok
        remark := { code := some .readOnly, text := some [] } }).wire := by
    decide +kernel
  exact differentWire sameWire

end Response

end Imap
