import Imap.Rule.Basic

/-!
# Rules for single tokens

The leaves of the grammar: a fixed word, a fixed word in any case, a run of bytes of one class, the
bytes before a class, and a given number of bytes. Only the last one knows how much is missing when
the input ends too early. A word that has started is reported without a count, because another word
may be complete with fewer bytes.
-/

namespace Imap.Rule

variable {α : Type}

/-- Matches the given word byte for byte. -/
def word (literal : Bytes) : Rule Bytes where
  run input :=
    if literal <+: input then .matched literal (input.drop literal.length)
    else if input <+: literal then .failed (.incomplete none)
    else .failed .malformed
  rest_suffix := by
    intro input rest value equality
    split at equality
    · cases equality
      exact List.drop_suffix literal.length input
    · split at equality <;> cases equality

/-- Matches the given word up to the case of ASCII letters; its value is the spelling found. -/
def wordAnyCase (literal : Bytes) : Rule Bytes where
  run input :=
    if literal.lower <+: input.lower then
      .matched (input.take literal.length) (input.drop literal.length)
    else if input.lower <+: literal.lower then .failed (.incomplete none)
    else .failed .malformed
  rest_suffix := by
    intro input rest value equality
    split at equality
    · cases equality
      exact List.drop_suffix literal.length input
    · split at equality <;> cases equality

/-- Matches the given word and gives no value. -/
def expect (literal : Bytes) : Rule Unit :=
  discard (word literal)

/-- Matches one space. -/
def space : Rule Unit :=
  expect [Byte.space]

/-- Reads a given value where the word stands. -/
def keyword (literal : Bytes) (value : α) : Rule α := do
  expect literal
  pure value

/-- One or more bytes of a class, ended by a byte outside it. A run that touches the end of the
input may still grow. -/
def bytesIn (member : UInt8 → Bool) : Rule Bytes where
  run input :=
    match input.dropWhile member with
    | [] => .failed (.incomplete none)
    | next :: rest =>
      if input.takeWhile member = [] then .failed .malformed
      else .matched (input.takeWhile member) (next :: rest)
  rest_suffix := by
    intro input rest value equality
    split at equality
    · cases equality
    · rename_i next tail restEquality
      split at equality
      · cases equality
      · cases equality
        rw [← restEquality]
        exact List.dropWhile_suffix member

/-- The bytes, possibly none, before the first byte of a class, which must have arrived. -/
def bytesBefore (stop : UInt8 → Bool) : Rule Bytes where
  run input :=
    match input.dropWhile fun byte => !stop byte with
    | [] => .failed (.incomplete none)
    | next :: rest => .matched (input.takeWhile fun byte => !stop byte) (next :: rest)
  rest_suffix := by
    intro input rest value equality
    split at equality
    · cases equality
    · rename_i next tail restEquality
      cases equality
      rw [← restEquality]
      exact List.dropWhile_suffix _

/-- Exactly `count` bytes of any kind. A shorter input says how many are missing. -/
def exactly (count : Nat) : Rule Bytes where
  run input :=
    if input.length < count then .failed (.incomplete (some (count - input.length)))
    else .matched (input.take count) (input.drop count)
  rest_suffix := by
    intro input rest value equality
    split at equality
    · cases equality
    · cases equality
      exact List.drop_suffix count input

/-- Drops one byte equal to the given one, if the input starts with it. At the end of the input the
byte may still arrive. -/
def skipOptional (byte : UInt8) : Rule Unit where
  run input :=
    match input with
    | [] => .failed (.incomplete none)
    | next :: rest => if next = byte then .matched () rest else .matched () (next :: rest)
  rest_suffix := by
    intro input rest value equality
    split at equality
    · cases equality
    · rename_i next tail
      split at equality
      · cases equality
        exact List.suffix_cons next rest
      · cases equality
        exact List.suffix_refl (next :: tail)

end Imap.Rule
