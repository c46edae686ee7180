import Mathlib.Data.List.TakeWhile
import Imap.Proofs.Grammar.Wire
import Imap.Report.Basic

/-!
# Details that a server cannot forge

The report of a failure quotes what a server sent, in the details and once more behind them. The
details are lines of the form `key=value`, and a line end in the quotation would start a line of the
server's choosing. None gets through: excerpts show no control bytes but line ends, and in the
details line ends are spelled out. So the details have the lines that the program wrote, they can be
read back, and no zero byte ends the text of the report early.
-/

namespace Imap

/-! ## Text without control bytes -/

/-- The text holds no control byte, so in particular no line end. -/
def Bytes.Plain (text : Bytes) : Prop :=
  ∀ byte ∈ text, Byte.isControl byte = false

/-- The only control bytes of the text are line ends. -/
def Bytes.PlainLines (text : Bytes) : Prop :=
  ∀ byte ∈ text, Byte.isControl byte = true → Byte.isLineEnd byte = true

namespace Bytes

/-- On a text that is written out, the test can be run. -/
theorem plain_of_all {text : Bytes} (allPlain : text.all (!Byte.isControl ·) = true) :
    text.Plain := by
  simpa [Plain] using allPlain

theorem Plain.append {first second : Bytes} (firstPlain : first.Plain)
    (secondPlain : second.Plain) : (first ++ second).Plain :=
  List.forall_mem_append.mpr ⟨firstPlain, secondPlain⟩

theorem PlainLines.append {first second : Bytes} (firstPlain : first.PlainLines)
    (secondPlain : second.PlainLines) : (first ++ second).PlainLines :=
  List.forall_mem_append.mpr ⟨firstPlain, secondPlain⟩

theorem Plain.plainLines {text : Bytes} (isPlain : text.Plain) : text.PlainLines := by
  intro byte member isControl
  rw [isPlain byte member] at isControl
  cases isControl

theorem Plain.not_mem {text : Bytes} (isPlain : text.Plain) {byte : UInt8}
    (isControl : Byte.isControl byte = true) : byte ∉ text := by
  intro member
  rw [isPlain byte member] at isControl
  cases isControl

theorem plain_digits (number : Nat) : (Decimal.digits number).Plain := by
  intro byte member
  obtain ⟨-, allDigits, -⟩ := Decimal.digits_mem_numeral number
  have isDigit := allDigits byte member
  simp only [Byte.isDigit, Bool.and_eq_true, decide_eq_true_eq] at isDigit
  simp only [Byte.isControl, Bool.or_eq_false_iff, decide_eq_false_iff_not, beq_eq_false_iff_ne]
  grind

/-- A control byte that is shown as it is ends a line. -/
theorem isLineEnd_printable {byte : UInt8}
    (isControl : Byte.isControl (Byte.printable byte) = true) :
    Byte.isLineEnd (Byte.printable byte) = true := by
  by_cases isMasked : (Byte.isControl byte && !Byte.isLineEnd byte) = true
  · rw [Byte.printable, if_pos isMasked] at isControl
    cases isControl
  · rw [Byte.printable, if_neg isMasked] at isControl ⊢
    simpa [isControl] using isMasked

theorem plainLines_excerpt (limit : Nat) (data : Bytes) : (data.excerpt limit).PlainLines := by
  have isPlainMark : truncationMark.Plain := plain_of_all rfl
  unfold excerpt
  apply PlainLines.append
  · intro byte member
    obtain ⟨original, -, rfl⟩ := List.mem_map.mp member
    exact isLineEnd_printable
  · split
    · exact isPlainMark.plainLines
    · exact List.forall_mem_nil _

end Bytes

namespace Detail

theorem plain_visible {byte : UInt8}
    (isLineEnd : Byte.isControl byte = true → Byte.isLineEnd byte = true) :
    Bytes.Plain (visible byte) := by
  by_cases isReturn : byte = Byte.carriageReturn
  · rw [visible, if_pos isReturn]
    exact Bytes.plain_of_all rfl
  · by_cases isFeed : byte = Byte.lineFeed
    · rw [visible, if_neg isReturn, if_pos isFeed]
      exact Bytes.plain_of_all rfl
    · have notLineEnd : Byte.isLineEnd byte = false := by
        simp [Byte.isLineEnd, isReturn, isFeed]
      rw [visible, if_neg isReturn, if_neg isFeed, Bytes.Plain, List.forall_mem_singleton]
      by_contra isControl
      rw [isLineEnd (Bool.eq_true_of_not_eq_false isControl)] at notLineEnd
      cases notLineEnd

/-- Spelling out the line ends leaves no control byte. -/
theorem plain_flatMap_visible {data : Bytes} (plainLines : data.PlainLines) :
    Bytes.Plain (data.flatMap visible) := by
  intro byte member
  obtain ⟨original, originalMember, shown⟩ := List.mem_flatMap.mp member
  exact plain_visible (plainLines original originalMember) byte shown

/-! ## Fields and lines -/

/-- A key and a value, as they stand on a line. -/
def fieldLine (field : Bytes × Bytes) : Bytes :=
  field.1 ++ ascii "=" ++ field.2

/-- The fields of a text, read from its lines. A line is ended by a line feed, and the first equals
sign in it ends its key. -/
def readFields (text : Bytes) : List (Bytes × Bytes) :=
  (text.splitOn Byte.lineFeed).dropLast.map fun line =>
    (line.takeWhile (· != 61), (line.dropWhile (· != 61)).tail)

theorem splitOn_lines {lines : List Bytes} (noFeed : ∀ line ∈ lines, Byte.lineFeed ∉ line) :
    (lines.flatMap fun line => line ++ [Byte.lineFeed]).splitOn Byte.lineFeed = lines ++ [[]] := by
  induction lines with
  | nil => rfl
  | cons line lines inductionHypothesis =>
    obtain ⟨firstNoFeed, othersNoFeed⟩ := List.forall_mem_cons.mp noFeed
    rw [List.flatMap_cons, List.append_assoc, List.singleton_append,
      List.splitOn_append_cons_self_of_not_mem firstNoFeed, inductionHypothesis othersNoFeed,
      List.cons_append]

/-- Keys end at the first equals sign, so a key must not hold one; a value may. -/
theorem readFields_eq {fields : List (Bytes × Bytes)} {text : Bytes}
    (noEquals : ∀ field ∈ fields, 61 ∉ field.1)
    (areLines : text.splitOn Byte.lineFeed = fields.map fieldLine ++ [[]]) :
    readFields text = fields := by
  have readLine : ∀ field ∈ fields,
      ((fieldLine field).takeWhile (· != 61), ((fieldLine field).dropWhile (· != 61)).tail) =
        field := by
    intro field member
    have allKey : ∀ byte ∈ field.1, (byte != 61) = true := by
      intro byte byteMember
      exact bne_iff_ne.mpr fun isEquals => noEquals field member (isEquals ▸ byteMember)
    rw [fieldLine, List.append_assoc, List.takeWhile_append_of_pos allKey,
      List.dropWhile_append_of_pos allKey]
    change (field.1 ++ [], field.2) = field
    rw [List.append_nil]
  rw [readFields, areLines, List.dropLast_concat, List.map_map]
  exact (List.map_congr_left readLine).trans (List.map_id fields)

end Detail

namespace Failure

open Detail

/-- The fields of the details of a failure. -/
def fields (failure : Failure) (input : Bytes) : List (Bytes × Bytes) :=
  [(ascii "proto", ascii "imap"), (ascii "decode.kind", ascii failure.kindName),
    (ascii "buffered.bytes", Decimal.digits input.length)] ++
  failure.needed?.toList.map (fun needed => (ascii "needed.bytes", Decimal.digits needed)) ++
  [(ascii "input", (input.excerpt excerptLimit).flatMap visible)]

/-- The failure and the length of the input that some fields tell of. -/
def ofFields (fields : List (Bytes × Bytes)) : Option (Failure × Nat) := do
  let kind ← fields.lookup (ascii "decode.kind")
  let length ← fields.lookup (ascii "buffered.bytes")
  let needed := (fields.lookup (ascii "needed.bytes")).map Decimal.value
  if kind = ascii "incomplete" then some (incomplete needed, Decimal.value length)
  else if kind = ascii "syntax" then some (malformed, Decimal.value length)
  else none

theorem lines_detail (failure : Failure) (input : Bytes) :
    (failure.detail input).lines =
      ((failure.fields input).map fieldLine).flatMap fun line => line ++ [Byte.lineFeed] := by
  unfold detail fields
  cases failure.needed? with
  | none => simp [add, addNumber, addExcerpt, empty, fieldLine]
  | some needed => simp [add, addNumber, addExcerpt, empty, fieldLine]

/-- The keys of the details of a failure, line by line. -/
def keys (failure : Failure) : List Bytes :=
  match failure.needed? with
  | none =>
    [ascii "proto", ascii "decode.kind", ascii "buffered.bytes", ascii "input"]
  | some _ =>
    [ascii "proto", ascii "decode.kind", ascii "buffered.bytes", ascii "needed.bytes",
      ascii "input"]

theorem map_fst_fields (failure : Failure) (input : Bytes) :
    (failure.fields input).map Prod.fst = failure.keys := by
  unfold fields keys
  cases failure.needed? <;> rfl

theorem key_plain (failure : Failure) (input : Bytes) :
    ∀ field ∈ failure.fields input, Bytes.Plain field.1 ∧ 61 ∉ field.1 := by
  have allKeys : failure.keys.all
      (fun key => key.all (!Byte.isControl ·) && !key.contains 61) = true := by
    unfold keys
    cases failure.needed? <;> rfl
  intro field member
  have isKey : field.1 ∈ failure.keys := by
    rw [← map_fst_fields failure input]
    exact List.mem_map_of_mem member
  have isPlain := List.all_eq_true.mp allKeys field.1 isKey
  rw [Bool.and_eq_true] at isPlain
  exact ⟨Bytes.plain_of_all isPlain.1, by simpa using isPlain.2⟩

theorem plain_kindName (failure : Failure) : Bytes.Plain (ascii failure.kindName) := by
  cases failure with
  | malformed => exact Bytes.plain_of_all rfl
  | incomplete needed =>
    rw [kindName]
    exact Bytes.plain_of_all rfl

theorem value_plain (failure : Failure) (input : Bytes) :
    ∀ field ∈ failure.fields input, Bytes.Plain field.2 := by
  have protocolPlain : Bytes.Plain (ascii "imap") := Bytes.plain_of_all rfl
  have inputPlain : Bytes.Plain ((input.excerpt excerptLimit).flatMap visible) :=
    plain_flatMap_visible (Bytes.plainLines_excerpt _ _)
  have neededPlain : ∀ field ∈ failure.needed?.toList.map fun needed =>
      (ascii "needed.bytes", Decimal.digits needed), Bytes.Plain field.2 := by
    intro field member
    obtain ⟨needed, -, rfl⟩ := List.mem_map.mp member
    exact Bytes.plain_digits needed
  simp only [fields, List.forall_mem_append, List.forall_mem_cons]
  exact ⟨⟨⟨protocolPlain, plain_kindName failure, Bytes.plain_digits _, List.forall_mem_nil _⟩,
    neededPlain⟩, inputPlain, List.forall_mem_nil _⟩

theorem plain_fieldLine (failure : Failure) (input : Bytes) :
    ∀ line ∈ (failure.fields input).map fieldLine, Bytes.Plain line := by
  have equalsPlain : Bytes.Plain (ascii "=") := Bytes.plain_of_all rfl
  intro line member
  obtain ⟨field, fieldMember, rfl⟩ := List.mem_map.mp member
  have keyPlain := (key_plain failure input field fieldMember).1
  exact (keyPlain.append equalsPlain).append (value_plain failure input field fieldMember)

/-- The details are split at their line feeds into the lines that were written. -/
theorem splitOn_lines_detail (failure : Failure) (input : Bytes) :
    (failure.detail input).lines.splitOn Byte.lineFeed =
      (failure.fields input).map fieldLine ++ [[]] := by
  rw [lines_detail]
  apply splitOn_lines
  intro line member
  exact (plain_fieldLine failure input line member).not_mem (by decide)

theorem eq_lineFeed_of_isControl {failure : Failure} {input : Bytes} {byte : UInt8}
    (member : byte ∈ (failure.detail input).lines) (isControl : Byte.isControl byte = true) :
    byte = Byte.lineFeed := by
  rw [lines_detail] at member
  obtain ⟨line, lineMember, inLine⟩ := List.mem_flatMap.mp member
  rcases List.mem_append.mp inLine with isInside | isEnd
  · exact absurd isInside ((plain_fieldLine failure input line lineMember).not_mem isControl)
  · exact List.mem_singleton.mp isEnd

theorem readFields_detail (failure : Failure) (input : Bytes) :
    readFields (failure.detail input).lines = failure.fields input := by
  apply readFields_eq _ (splitOn_lines_detail failure input)
  intro field member
  exact (key_plain failure input field member).2

theorem ofFields_fields (failure : Failure) (input : Bytes) :
    ofFields (failure.fields input) = some (failure, input.length) := by
  have readNumber : ∀ number, Decimal.value (Decimal.digits number) = number :=
    fun number => (Decimal.digits_mem_numeral number).2.2
  have kind : (failure.fields input).lookup (ascii "decode.kind") =
      some (ascii failure.kindName) := rfl
  have length : (failure.fields input).lookup (ascii "buffered.bytes") =
      some (Decimal.digits input.length) := rfl
  have needed : (failure.fields input).lookup (ascii "needed.bytes") =
      failure.needed?.map Decimal.digits := by
    unfold fields
    cases failure.needed? <;> rfl
  unfold ofFields
  rw [kind, length, needed]
  cases failure with
  | malformed =>
    have notIncomplete : ascii "syntax" ≠ ascii "incomplete" := by decide
    simp [kindName, notIncomplete, readNumber]
  | incomplete count => simp [kindName, needed?, Function.comp_def, readNumber]

/-! ## The whole report -/

theorem plainLines_lines (failure : Failure) (input : Bytes) :
    Bytes.PlainLines (failure.detail input).lines := by
  intro byte member isControl
  rw [eq_lineFeed_of_isControl member isControl]
  rfl

theorem plainLines_text (failure : Failure) (input : Bytes) :
    Bytes.PlainLines (failure.report input).text := by
  have headlinePlain : Bytes.Plain failure.headline := by
    apply Bytes.plain_of_all
    cases failure <;> rfl
  have feedPlain : Bytes.PlainLines [Byte.lineFeed] :=
    List.forall_mem_singleton.mpr fun _ => rfl
  have openingPlain : Bytes.Plain (ascii "[") := Bytes.plain_of_all rfl
  have closingPlain : Bytes.Plain (ascii "] ") := Bytes.plain_of_all rfl
  have separatorPlain : Bytes.Plain (ascii ": ") := Bytes.plain_of_all rfl
  have responsePlain := Bytes.plainLines_excerpt responseLimit input
  have codePlain := Bytes.plain_digits failure.errorCode.number.toNat
  have prefixPlain := ((openingPlain.append codePlain).append closingPlain).plainLines
  have messagePlain :=
    (headlinePlain.plainLines.append feedPlain).append (plainLines_lines failure input)
  unfold ErrorReport.text
  apply (prefixPlain.append messagePlain).append
  split
  · exact List.forall_mem_nil _
  · exact separatorPlain.plainLines.append responsePlain

end Failure

/-- A zero byte is a control byte that ends no line, so a plain report has none. -/
theorem ErrorReport.terminatedText_eq {report : ErrorReport}
    (plainLines : Bytes.PlainLines report.text) : report.terminatedText = report.text := by
  unfold terminatedText
  rw [List.takeWhile_eq_self_iff]
  intro byte member
  apply bne_iff_ne.mpr
  rintro rfl
  cases plainLines Byte.nul member rfl

theorem decodeOrReport_eq_error_iff {input : Bytes} {report : ErrorReport} :
    decodeOrReport input = .error report ↔
      ∃ failure, decode input = .error failure ∧ report = failure.report input := by
  unfold decodeOrReport
  cases decode input with
  | ok decoded => simp [Except.mapError]
  | error failure => simp [Except.mapError, eq_comm]

/-- The details of a failure consist of four lines, or of five if bytes were counted, each with its
key and ended by the only control bytes in the text; and they tell the failure and the length of the
input. The whole report holds no control bytes but line ends, so its text is read to its end where a
zero byte would end it. -/
theorem Failure.details_unforgeable (failure : Failure) (input : Bytes) :
    (failure.detail input).lines.splitOn Byte.lineFeed =
      (failure.fields input).map Detail.fieldLine ++ [[]] ∧
    (failure.fields input).map Prod.fst =
      (match failure.needed? with
        | none =>
          [ascii "proto", ascii "decode.kind", ascii "buffered.bytes", ascii "input"]
        | some _ =>
          [ascii "proto", ascii "decode.kind", ascii "buffered.bytes", ascii "needed.bytes",
            ascii "input"]) ∧
    (∀ byte ∈ (failure.detail input).lines, Byte.isControl byte = true → byte = Byte.lineFeed) ∧
    Detail.readFields (failure.detail input).lines = failure.fields input ∧
    Failure.ofFields (Detail.readFields (failure.detail input).lines) =
      some (failure, input.length) ∧
    (∀ byte ∈ (failure.report input).text, Byte.isControl byte = true →
      byte = Byte.carriageReturn ∨ byte = Byte.lineFeed) ∧
    ∀ report, decodeOrReport input = .error report → report.terminatedText = report.text := by
  refine ⟨splitOn_lines_detail failure input, map_fst_fields failure input, ?_,
    readFields_detail failure input, ?_, ?_, ?_⟩
  · intro byte member isControl
    exact eq_lineFeed_of_isControl member isControl
  · rw [readFields_detail, ofFields_fields]
  · intro byte member isControl
    have isLineEnd := plainLines_text failure input byte member isControl
    simpa [Byte.isLineEnd] using isLineEnd
  · intro report isReported
    obtain ⟨found, -, rfl⟩ := decodeOrReport_eq_error_iff.mp isReported
    exact ErrorReport.terminatedText_eq (plainLines_text found input)

/-- A zero byte, and behind it a line that would tell of a count. -/
theorem Failure.details_unforgeable_count :
    let input := ascii "\x00\r\nneeded.bytes=1\n"
    let details := (Failure.malformed.detail input).lines
    let report := Failure.malformed.report input
    (Byte.lineFeed ∈ details ∧ Byte.isControl Byte.lineFeed = true ∧
      Byte.carriageReturn ∈ report.text ∧ Byte.isControl Byte.carriageReturn = true ∧
      decodeOrReport input = .error report) ∧
    (Byte.carriageReturn ∉ details ∧ Byte.nul ∉ report.text ∧
      Failure.ofFields (Detail.readFields details) = some (.malformed, 18) ∧
      report.terminatedText = report.text) := by
  intro input details report
  have holdsFeed : Byte.lineFeed ∈ details := by
    decide +kernel
  have holdsReturn : Byte.carriageReturn ∈ report.text := by
    decide +kernel
  have isReported : decodeOrReport input = .error report := by
    decide +kernel
  obtain ⟨-, -, onlyFeeds, -, told, onlyLineEnds, notCut⟩ :=
    Failure.details_unforgeable .malformed input
  refine ⟨⟨holdsFeed, rfl, holdsReturn, rfl, isReported⟩, ?_, ?_, told, notCut report isReported⟩
  · intro isReturn
    cases onlyFeeds Byte.carriageReturn isReturn rfl
  · intro isZero
    rcases onlyLineEnds Byte.nul isZero rfl with isReturn | isFeed
    · cases isReturn
    · cases isFeed

end Imap
