import Imap.Token.Literal
import Imap.Token.Quoted

/-!
# Strings and nullable strings

A string is quoted or a literal. It is written quoted unless it holds a byte that a quoted string
must not carry. Where the grammar allows a missing string, the word `NIL` stands for it, and a
missing string is kept apart from an empty one.
-/

namespace Imap

namespace ByteString

/-- The two forms of a string. -/
def forms : List (Rule Bytes) :=
  [Quoted.rule, Literal.rule]

/-- A string in either form. -/
def rule : Rule Bytes :=
  Rule.firstOf forms

/-- Holds for the bytes that force a literal: the line ends and the zero byte. -/
def needsLiteral (byte : UInt8) : Bool :=
  Byte.isLineEnd byte || byte == Byte.nul

/-- The form in which a string is written. -/
def wire (value : Bytes) : Bytes :=
  if value.any needsLiteral then Literal.wire value else Quoted.wire value

end ByteString

namespace NullableString

/-- The word for a missing value. -/
def nil : Bytes := ascii "NIL"

/-- A missing string or a present one. -/
def forms : List (Rule (Option Bytes)) :=
  [Rule.keyword nil none, some <$> ByteString.rule]

/-- A string that may be missing. -/
def rule : Rule (Option Bytes) :=
  Rule.firstOf forms

/-- The written form of a string that may be missing. -/
def wire : Option Bytes → Bytes
  | none => nil
  | some value => ByteString.wire value

end NullableString

end Imap
