import Imap.Bytes.Basic

/-!
# Classes of bytes

The grammar of server responses names a few sets of bytes. They are nested: an atom may hold any
byte that is not special, a string of astring bytes may hold a closing bracket as well, and a
command tag is a string of astring bytes without a plus sign. Bytes from 128 on belong to atoms.
-/

namespace Imap.Byte

/-- A carriage return or a line feed. -/
def isLineEnd (byte : UInt8) : Bool :=
  byte == carriageReturn || byte == lineFeed

/-- The wildcards `%` and `*` of mailbox patterns. -/
def isListWildcard (byte : UInt8) : Bool :=
  byte == 37 || byte == 42

/-- The two bytes that a quoted string escapes. -/
def isQuotedSpecial (byte : UInt8) : Bool :=
  byte == doubleQuote || byte == backslash

/-- The closing bracket, which ends a response code. -/
def isResponseSpecial (byte : UInt8) : Bool :=
  byte == 93

/-- Parentheses, opening brace, space, control bytes and the three classes above. -/
def isAtomSpecial (byte : UInt8) : Bool :=
  byte == 40 || byte == 41 || byte == 123 || byte == space || byte < 32 ||
    isListWildcard byte || isQuotedSpecial byte || isResponseSpecial byte

/-- The bytes of an atom. -/
def isAtomChar (byte : UInt8) : Bool :=
  !isAtomSpecial byte

/-- The bytes of an atom and the closing bracket. -/
def isAstringChar (byte : UInt8) : Bool :=
  isAtomChar byte || isResponseSpecial byte

/-- The bytes of a command tag: astring bytes without the plus sign. -/
def isTagChar (byte : UInt8) : Bool :=
  byte != 43 && isAstringChar byte

/-- The decimal digits. -/
def isDigit (byte : UInt8) : Bool :=
  48 ≤ byte && byte ≤ 57

/-- A byte below the space, or the delete byte. -/
def isControl (byte : UInt8) : Bool :=
  byte < 32 || byte == delete

end Imap.Byte
