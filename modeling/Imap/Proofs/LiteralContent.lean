import Imap.Proofs.Grammar.Blindness

/-!
# The content of a literal

Where the decoder counts missing bytes it is inside a literal, and there it takes whatever arrives.
Line ends, quotes, parentheses, zero bytes or a line that looks like a response of its own change
nothing but the one string that the literal gives: the answer is of the same kind for every body of
the counted length, it spans the same bytes or asks for the same number of them, and it is the same
fetch response around that string.
-/

namespace Imap

open Rule

/-- The counted bytes of a literal are data. For all of them the decoder fails in one way, or it
gives one fetch response with one string left open, which they complete. -/
theorem decode_literal_content {input : Bytes} {needed : Nat}
    (waits : decode input = .error (.incomplete (some needed))) (later : Bytes) :
    (∃ failure, ∀ body : Bytes, body.length = needed →
      decode (input ++ body ++ later) = .error failure) ∨
    ∃ held sequenceNumber fill consumed, held <:+ input ∧ EntrySlot Attribute.Slot fill ∧
      ∀ body : Bytes, body.length = needed →
        decode (input ++ body ++ later) = .ok {
          response := .fetch sequenceNumber (fill (held ++ body))
          consumed := consumed } := by
  rcases Response.blind_rule (decode_eq_error_iff.mp waits) later with
    ⟨failure, fails⟩ | ⟨held, fill, rest, isSuffix, isSlot, isMatch⟩
  · refine Or.inl ⟨failure, fun body isAll => ?_⟩
    rw [decode_eq_error_iff, List.append_assoc]
    exact fails body isAll
  · cases isSlot with
    | @fetch sequenceNumber fill isSlot =>
      refine Or.inr ⟨held, sequenceNumber, fill, input.length + needed + later.length - rest.length,
        isSuffix, isSlot, fun body isAll => ?_⟩
      rw [decode_eq_ok_iff, List.append_assoc]
      refine ⟨rest, isMatch body isAll, ?_⟩
      simp only [List.length_append, isAll]
      omega

/-- A message whose last two bytes are missing, and the parenthesis and the line end behind it. -/
theorem decode_literal_content_message :
    decode (ascii "* 1 FETCH (RFC822 \x7b4\x7d\r\nab") = .error (.incomplete (some 2)) ∧
    ∃ held sequenceNumber fill consumed,
      held <:+ ascii "* 1 FETCH (RFC822 \x7b4\x7d\r\nab" ∧ EntrySlot Attribute.Slot fill ∧
      ∀ body : Bytes, body.length = 2 →
        decode (ascii "* 1 FETCH (RFC822 \x7b4\x7d\r\nab" ++ body ++ ascii ")\r\n") = .ok {
          response := .fetch sequenceNumber (fill (held ++ body))
          consumed := consumed } := by
  have waits : decode (ascii "* 1 FETCH (RFC822 \x7b4\x7d\r\nab") =
      .error (.incomplete (some 2)) := by
    decide +kernel
  have accepted : decode (ascii "* 1 FETCH (RFC822 \x7b4\x7d\r\nab" ++ ascii "\r\n" ++
      ascii ")\r\n") =
      .ok { response := .fetch 1 [.rfc822 (some (ascii "ab\r\n"))], consumed := 30 } := by
    decide +kernel
  refine ⟨waits, (decode_literal_content waits (ascii ")\r\n")).resolve_left ?_⟩
  rintro ⟨failure, fails⟩
  rw [fails (ascii "\r\n") rfl] at accepted
  cases accepted

end Imap
