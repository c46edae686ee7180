import Imap.Proofs.Decoding
import Imap.Proofs.Grammar.LineBound

/-!
# A finished line is decided

On a line without strings the decoder has its answer when the line end has arrived. The answer is a
refusal, or a response that spans the line and its end. Bytes after the line end take no part in
either. So a reader that waits for more bytes after a complete line waits inside a string.
-/

namespace Imap

/-- A line without strings is refused for good or holds one response, whatever follows it. -/
theorem decode_line_cases {line : Bytes} (isPlain : ∀ byte ∈ line, Byte.isPlain byte = true) :
    (∀ later, decode (line ++ Bytes.crlf ++ later) = .error .malformed) ∨
      ∃ response, ∀ later, decode (line ++ Bytes.crlf ++ later) =
        .ok { response := response, consumed := line.length + 2 } := by
  rcases Response.closes_rule line isPlain [] with fails | ⟨response, isMatch⟩
  · rw [List.append_nil, ← decode_eq_error_iff] at fails
    exact Or.inl (decode_append_of_malformed fails)
  · have success : decode (line ++ Bytes.crlf) =
        .ok { response := response, consumed := line.length + 2 } :=
      decode_eq_ok_iff.mpr ⟨[], by rwa [List.append_nil] at isMatch, by simp⟩
    exact Or.inr ⟨response, decode_append_of_ok success⟩

/-- Behind a line end the decoder never waits, and it never reads across one: on a line without line
ends, quotes and opening braces the answer is a refusal or a response with exactly that line. -/
theorem decode_finished_line {line : Bytes}
    (withoutStrings : ∀ byte ∈ line, byte ∉ ascii "\r\n\"\x7b") (later : Bytes) :
    (∀ needed, decode (line ++ Bytes.crlf ++ later) ≠ .error (.incomplete needed)) ∧
      ∀ decoded, decode (line ++ Bytes.crlf ++ later) = .ok decoded →
        decoded.consumed = line.length + 2 := by
  have isPlain : ∀ byte ∈ line, Byte.isPlain byte = true :=
    fun byte isIn => decide_eq_true (withoutStrings byte isIn)
  rcases decode_line_cases isPlain with refusal | ⟨response, success⟩
  · rw [refusal later]
    exact ⟨fun _ => nofun, nofun⟩
  · rw [success later]
    refine ⟨fun _ => nofun, fun decoded isDecoded => ?_⟩
    cases isDecoded
    rfl

/-- A message count whose line has ended, in front of a line that has only begun. -/
theorem decode_finished_line_count :
    (∀ needed, decode (ascii "* 3 EXISTS" ++ Bytes.crlf ++ ascii "* 1 FET") ≠
        .error (.incomplete needed)) ∧
      ∃ decoded, decode (ascii "* 3 EXISTS" ++ Bytes.crlf ++ ascii "* 1 FET") = .ok decoded ∧
        decoded.consumed = (ascii "* 3 EXISTS").length + 2 := by
  have allPlain : (ascii "* 3 EXISTS").all Byte.isPlain = true := by
    decide
  have withoutStrings : ∀ byte ∈ ascii "* 3 EXISTS", byte ∉ ascii "\r\n\"\x7b" :=
    fun byte isIn => of_decide_eq_true (List.all_eq_true.mp allPlain byte isIn)
  have success : decode (ascii "* 3 EXISTS" ++ Bytes.crlf ++ ascii "* 1 FET") =
      .ok { response := .mailbox (.exists 3), consumed := 12 } := by
    decide +kernel
  obtain ⟨decided, spansLine⟩ := decode_finished_line withoutStrings (ascii "* 1 FET")
  exact ⟨decided, _, success, spansLine _ success⟩

end Imap
