import Imap.Proofs.Rule.Answers
import Imap.Token.Quoted

/-!
# The scanner for the closing quote

The scanner looks at one byte, or at two when the first is a backslash. Its three equations are
stated here for inputs of any kind, and with them that a closing quote once found stays the closing
quote when bytes are added.
-/

namespace Imap.Quoted

theorem close?_quote (rest : Bytes) :
    close? (Byte.doubleQuote :: rest) = some ([], rest) := by
  simp [close?.eq_def]

theorem close?_escape (escaped : UInt8) (rest : Bytes) :
    close? (Byte.backslash :: escaped :: rest) =
      (close? rest).map fun (value, after) => (unescapePair escaped ++ value, after) := by
  have notQuote : Byte.backslash ≠ Byte.doubleQuote := by decide
  rw [close?.eq_def]
  simp [notQuote]

theorem close?_plain {byte : UInt8} (notQuote : byte ≠ Byte.doubleQuote)
    (notBackslash : byte ≠ Byte.backslash) (rest : Bytes) :
    close? (byte :: rest) = (close? rest).map fun (value, after) => (byte :: value, after) := by
  rw [close?.eq_def]
  simp [notQuote, notBackslash]

theorem close?_append {input value rest : Bytes} (closed : close? input = some (value, rest))
    (later : Bytes) : close? (input ++ later) = some (value, rest ++ later) := by
  fun_induction close? input generalizing value with
  | case1 => cases closed
  | case2 rest =>
    cases closed
    exact close?_quote (rest ++ later)
  | case3 => cases closed
  | case4 escaped unread _ inductionHypothesis =>
    obtain ⟨⟨inner, after⟩, innerClosed, equality⟩ := Option.map_eq_some_iff.mp closed
    cases equality
    rw [List.cons_append, List.cons_append, close?_escape, inductionHypothesis innerClosed]
    rfl
  | case5 byte unread notQuote notBackslash inductionHypothesis =>
    obtain ⟨⟨inner, after⟩, innerClosed, equality⟩ := Option.map_eq_some_iff.mp closed
    cases equality
    rw [List.cons_append, close?_plain notQuote notBackslash, inductionHypothesis innerClosed]
    rfl

theorem run_body_eq_matched_iff {input value rest : Bytes} :
    body.run input = .matched value rest ↔ close? input = some (value, rest) := by
  simp only [body]
  cases close? input with
  | none => simp
  | some pair => simp [Prod.ext_iff]

theorem run_body_eq_incomplete_iff {input : Bytes} {needed : Option Nat} :
    body.run input = .failed (.incomplete needed) ↔ needed = none ∧ close? input = none := by
  simp only [body]
  cases close? input with
  | none => simp [eq_comm]
  | some pair => simp

theorem run_body_ne_malformed {input : Bytes} : body.run input ≠ .failed .malformed := by
  simp only [body]
  cases close? input with
  | none => simp
  | some pair => simp

end Imap.Quoted
