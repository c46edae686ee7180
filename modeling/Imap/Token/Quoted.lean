import Imap.Bytes.Class
import Imap.Rule.Token

/-!
# Quoted strings

A quoted string stands between double quotes. Inside it a backslash escapes a quote or a backslash.
Before any other byte a backslash stands for itself, and the pair is kept; in no case does the byte
after a backslash end the string. Every byte may occur between the quotes.
-/

namespace Imap.Quoted

/-- The bytes that a backslash and the byte after it stand for. -/
def unescapePair (escaped : UInt8) : Bytes :=
  if Byte.isQuotedSpecial escaped then [escaped] else [Byte.backslash, escaped]

/-- The value up to the closing quote and the bytes after it, once the opening quote has been read;
nothing if no closing quote has arrived. -/
def close? : Bytes → Option (Bytes × Bytes)
  | [] => none
  | byte :: rest =>
    if byte = Byte.doubleQuote then some ([], rest)
    else if byte = Byte.backslash then
      match rest with
      | [] => none
      | escaped :: later =>
        (close? later).map fun (value, after) => (unescapePair escaped ++ value, after)
    else (close? rest).map fun (value, after) => (byte :: value, after)

theorem close?_suffix {input value rest : Bytes} (closed : close? input = some (value, rest)) :
    rest <:+ input := by
  fun_induction close? input generalizing value with
  | case1 => cases closed
  | case2 =>
    cases closed
    exact List.suffix_cons _ _
  | case3 => cases closed
  | case4 escaped later _ inductionHypothesis =>
    obtain ⟨⟨inner, after⟩, innerClosed, equality⟩ := Option.map_eq_some_iff.mp closed
    cases equality
    exact ((inductionHypothesis innerClosed).trans (List.suffix_cons _ _)).trans
      (List.suffix_cons _ _)
  | case5 byte rest _ _ inductionHypothesis =>
    obtain ⟨⟨inner, after⟩, innerClosed, equality⟩ := Option.map_eq_some_iff.mp closed
    cases equality
    exact (inductionHypothesis innerClosed).trans (List.suffix_cons _ _)

/-- The part of a quoted string after its opening quote. -/
def body : Rule Bytes where
  run input :=
    match close? input with
    | none => .failed (.incomplete none)
    | some (value, rest) => .matched value rest
  rest_suffix := by
    intro input rest value equality
    split at equality
    · cases equality
    · rename_i closed
      cases equality
      exact close?_suffix closed

/-- A quoted string; its value is unescaped. -/
def rule : Rule Bytes := do
  Rule.expect [Byte.doubleQuote]
  body

/-- The quoted form of a value. -/
def wire (value : Bytes) : Bytes :=
  [Byte.doubleQuote] ++ value.escape [Byte.doubleQuote, Byte.backslash] ++ [Byte.doubleQuote]

end Imap.Quoted
