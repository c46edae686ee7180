/-!
# Byte strings

Everything a mail server sends is a string of bytes, and nothing in this library assumes that those
bytes are text. A byte string is a list, so that a reader is a recursion on what has not been read
yet. Names of protocol words are written as ASCII text and turned into bytes by `ascii`.
-/

namespace Imap

/-- A byte string, first byte first. -/
abbrev Bytes := List UInt8

/-- The bytes of an ASCII text, one byte for each character. -/
def ascii (text : String) : Bytes :=
  text.toList.map fun letter => letter.toNat.toUInt8

namespace Byte

abbrev nul : UInt8 := 0
abbrev lineFeed : UInt8 := 10
abbrev carriageReturn : UInt8 := 13
abbrev space : UInt8 := 32
abbrev doubleQuote : UInt8 := 34
abbrev backslash : UInt8 := 92
abbrev delete : UInt8 := 127

/-- Maps an ASCII capital to its small letter and keeps every other byte. -/
def lower (byte : UInt8) : UInt8 :=
  if 65 ≤ byte ∧ byte ≤ 90 then byte + 32 else byte

end Byte

namespace Bytes

/-- The two bytes that end a protocol line. -/
abbrev crlf : Bytes := [Byte.carriageReturn, Byte.lineFeed]

/-- The byte string with every ASCII capital made small. -/
def lower (bytes : Bytes) : Bytes :=
  bytes.map Byte.lower

/-- Equality up to the case of ASCII letters. -/
def equalFolded (left right : Bytes) : Bool :=
  lower left == lower right

/-- Puts a backslash before each byte that occurs in `specials`. -/
def escape (bytes specials : Bytes) : Bytes :=
  bytes.flatMap fun byte =>
    if byte ∈ specials then [Byte.backslash, byte] else [byte]

/-- The items in order, with one separator byte between neighbours. -/
def joined (separator : UInt8) (items : List Bytes) : Bytes :=
  [separator].intercalate items

@[simp]
theorem length_lower (bytes : Bytes) : (lower bytes).length = bytes.length := by
  simp [lower]

end Bytes

end Imap
