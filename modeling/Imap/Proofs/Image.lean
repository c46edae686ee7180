import Imap.Proofs.Decoding
import Imap.Proofs.Grammar.ConditionReading
import Imap.Proofs.Grammar.Inhabited

/-!
# The values that the decoder gives

The decoder gives every well-formed value for some input, and it gives no other value. So a program
that handles decoded responses may rely on well-formedness, and on nothing more.
-/

namespace Imap

theorem exists_decode_iff_exists_mem_spelling {response : Response} :
    (∃ input consumed, decode input = .ok { response := response, consumed := consumed }) ↔
      ∃ word, word ∈ response.spelling := by
  constructor
  · rintro ⟨input, consumed, success⟩
    obtain ⟨word, rest, isWord, -, -⟩ := decode_eq_ok_iff_append.mp success
    exact ⟨word, isWord⟩
  · rintro ⟨word, isWord⟩
    exact ⟨word, word.length,
      decode_eq_ok_iff_append.mpr ⟨word, [], isWord, rfl, List.append_nil word⟩⟩

/-- Whether a text looks like a code is asked of the text with its line end. -/
theorem starts_iff_exists_run_code {text : Bytes}
    (onLine : ∀ byte ∈ text, Byte.isLineEnd byte = false) :
    ResponseCode.Starts text ↔
      ∃ code rest, ResponseCode.rule.run (text ++ Bytes.crlf) = .matched code rest := by
  constructor
  · rintro ⟨code, word, isCode, after, shape⟩
    subst shape
    refine ⟨code, after ++ Bytes.crlf, ?_⟩
    rw [List.append_assoc]
    exact ResponseCode.reads_rule.complete (Set.mem_univ code) isCode (Set.mem_univ _)
  · rintro ⟨code, rest, codeMatch⟩
    by_contra noCode
    have lineEnd : Bytes.crlf ∈ Remark.lineEnds := Remark.crlf_append_mem_lineEnds []
    rw [(Remark.run_code_eq_malformed_iff onLine lineEnd).mpr noCode] at codeMatch
    cases codeMatch

theorem ResponseCode.not_starts_nil : ¬ ResponseCode.Starts [] := by
  intro starts
  obtain ⟨code, rest, codeMatch⟩ := (starts_iff_exists_run_code (by simp)).mp starts
  have noCode : ResponseCode.rule.run ([] ++ Bytes.crlf) = .failed .malformed := rfl
  rw [noCode] at codeMatch
  cases codeMatch

/-- Well-formed remarks, told with the rule for codes instead of its grammar. -/
theorem Remark.wellFormed_iff {remark : Remark} :
    remark.WellFormed ↔
      (∀ code ∈ remark.code, code.WellFormed) ∧ FreeText.WellFormed remark.text ∧
      (remark.code = none → ∀ text ∈ remark.text, ∀ code rest,
        ResponseCode.rule.run (text ++ Bytes.crlf) ≠ .matched code rest) := by
  rcases remark with ⟨code, text⟩
  constructor
  · rintro ⟨codeWellFormed, textWellFormed, noCode⟩
    refine ⟨codeWellFormed, textWellFormed, ?_⟩
    rintro isAbsent present ⟨⟩ found rest codeMatch
    have onLine := (textWellFormed present rfl).2
    exact noCode isAbsent ((starts_iff_exists_run_code onLine).mpr ⟨found, rest, codeMatch⟩)
  · rintro ⟨codeWellFormed, textWellFormed, noCode⟩
    refine ⟨codeWellFormed, textWellFormed, fun isAbsent starts => ?_⟩
    cases text with
    | none => exact ResponseCode.not_starts_nil starts
    | some present =>
      have onLine := (textWellFormed present rfl).2
      obtain ⟨found, rest, codeMatch⟩ := (starts_iff_exists_run_code onLine).mp starts
      exact noCode isAbsent present rfl found rest codeMatch

/-- The decoder gives exactly the well-formed responses. In them, a text without a code in front is
one that the rule for codes does not match on its line. -/
theorem exists_decode_iff_wellFormed :
    (∀ response : Response,
      (∃ input consumed, decode input = .ok { response := response, consumed := consumed }) ↔
        response.WellFormed) ∧
    ∀ remark : Remark, remark.WellFormed ↔
      (∀ code ∈ remark.code, code.WellFormed) ∧ FreeText.WellFormed remark.text ∧
      (remark.code = none → ∀ text ∈ remark.text, ∀ code rest,
        ResponseCode.rule.run (text ++ Bytes.crlf) ≠ .matched code rest) := by
  constructor
  · intro response
    rw [exists_decode_iff_exists_mem_spelling]
    exact Response.exists_mem_spelling_iff
  · intro remark
    exact Remark.wellFormed_iff

end Imap
