import Imap.Proofs.Decoding
import Imap.Proofs.Grammar.Wire

/-!
# Writing and decoding

What the decoder has given can be written and decoded again, and it is the same value, whatever
bytes come after it. The written form need not be the bytes that were read: numbers lose their
leading zeros, status words become capitals, and a string is quoted where it can be.
-/

namespace Imap

theorem decode_wire_of_wellFormed {response : Response} (isWellFormed : response.WellFormed)
    (areWritable : ∀ text ∈ response.strings, ByteString.Writable text) (later : Bytes) :
    decode (response.wire ++ later) =
      .ok { response := response, consumed := response.wire.length } :=
  decode_eq_ok_iff_append.mpr ⟨response.wire, later,
    Response.wire_mem_spelling isWellFormed areWritable, rfl, rfl⟩

theorem wellFormed_of_decode {input : Bytes} {decoded : Decoded}
    (success : decode input = .ok decoded) : decoded.response.WellFormed := by
  obtain ⟨word, _, isWord, -, -⟩ := decode_eq_ok_iff_append.mp success
  exact Response.wellFormed_of_mem_spelling isWord

/-- A decoded value whose literals can be announced survives being written and decoded. -/
theorem decode_wire_append {input : Bytes} {decoded : Decoded}
    (success : decode input = .ok decoded)
    (areShort : ∀ text ∈ decoded.response.strings,
      text.any ByteString.needsLiteral = true → text.length ≤ 4294967295) (later : Bytes) :
    decode (decoded.response.wire ++ later) =
      .ok { response := decoded.response, consumed := decoded.response.wire.length } :=
  decode_wire_of_wellFormed (wellFormed_of_decode success) areShort later

/-- A body that is a line end needs a literal. -/
theorem decode_wire_append_literal :
    decode (ascii "* 1 FETCH (RFC822 \x7b2\x7d\r\n\r\n)\r\n* BYE") =
      .ok { response := .fetch 1 [.rfc822 (some Bytes.crlf)], consumed := 28 } := by
  have isWellFormed : (Response.fetch 1 [.rfc822 (some Bytes.crlf)]).WellFormed := by
    simp [Response.WellFormed, Attribute.WellFormed]
  have areShort : ∀ text ∈ (Response.fetch 1 [.rfc822 (some Bytes.crlf)]).strings,
      text.any ByteString.needsLiteral = true → text.length ≤ 4294967295 := by
    simp [Response.strings, Attribute.strings]
  have success := decode_wire_of_wellFormed isWellFormed areShort []
  have isWire : (Response.fetch 1 [.rfc822 (some Bytes.crlf)]).wire =
      ascii "* 1 FETCH (RFC822 \x7b2\x7d\r\n\r\n)\r\n" := by
    decide +kernel
  have again := decode_wire_append success areShort (ascii "* BYE")
  rw [isWire] at again
  exact again

end Imap
