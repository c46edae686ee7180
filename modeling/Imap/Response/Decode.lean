import Imap.Response.Grammar

/-!
# Decoding one response

The decoder reads the response at the front of a buffer and says how many bytes belong to it. It
keeps no state: while a response is incomplete, the caller adds bytes and decodes the whole buffer
again.
-/

namespace Imap

/-- A response and the number of bytes it spans. -/
structure Decoded where
  response : Response
  consumed : Nat
deriving DecidableEq, Repr

/-- Decodes the response at the front of the input. -/
def decode (input : Bytes) : Except Failure Decoded :=
  match Response.rule.run input with
  | .matched response rest => .ok { response := response, consumed := input.length - rest.length }
  | .failed failure => .error failure

theorem decode_eq_ok_iff {input : Bytes} {decoded : Decoded} :
    decode input = .ok decoded ↔
      ∃ rest, Response.rule.run input = .matched decoded.response rest ∧
        decoded.consumed = input.length - rest.length := by
  unfold decode
  cases Response.rule.run input with
  | matched response rest =>
    constructor
    · intro equality
      cases equality
      exact ⟨rest, rfl, rfl⟩
    · rintro ⟨_, equality, consumedEquality⟩
      cases decoded
      cases equality
      cases consumedEquality
      rfl
  | failed failure => simp

theorem decode_eq_error_iff {input : Bytes} {failure : Failure} :
    decode input = .error failure ↔ Response.rule.run input = .failed failure := by
  unfold decode
  cases Response.rule.run input with
  | matched response rest => simp
  | failed found => simp

theorem consumed_pos {input : Bytes} {decoded : Decoded} (success : decode input = .ok decoded) :
    0 < decoded.consumed := by
  obtain ⟨rest, ruleMatch, equality⟩ := decode_eq_ok_iff.mp success
  have := Response.consuming_rule ruleMatch
  omega

theorem consumed_le {input : Bytes} {decoded : Decoded} (success : decode input = .ok decoded) :
    decoded.consumed ≤ input.length := by
  obtain ⟨rest, ruleMatch, equality⟩ := decode_eq_ok_iff.mp success
  omega

end Imap
