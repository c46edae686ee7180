import Imap.Bytes.Decimal
import Imap.Rule.Token

/-!
# Numbers of a fixed width

A number is a run of digits, with any number of leading zeros. A run whose value does not fit the
width is malformed; it is never cut down to a value that fits.
-/

namespace Imap.Number

/-- A natural number as a word of 32 bits, if it fits. -/
def fitting32 (number : Nat) : Option UInt32 :=
  if fits : number < UInt32.size then some (UInt32.ofNatLT number fits) else none

/-- A natural number as a word of 64 bits, if it fits. -/
def fitting64 (number : Nat) : Option UInt64 :=
  if fits : number < UInt64.size then some (UInt64.ofNatLT number fits) else none

/-- A run of digits. -/
def digitRun : Rule Bytes :=
  Rule.bytesIn Byte.isDigit

/-- A number of 32 bits. -/
def rule : Rule UInt32 :=
  digitRun.accepting fun digits => fitting32 (Decimal.value digits)

/-- A number of 64 bits, as modification sequences are. -/
def wideRule : Rule UInt64 :=
  digitRun.accepting fun digits => fitting64 (Decimal.value digits)

end Imap.Number
