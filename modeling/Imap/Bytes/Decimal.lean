import Imap.Bytes.Class

/-!
# Decimal numbers

Numbers travel as runs of decimal digits. Reading a run gives a natural number of any size, and the
rules that read one decide afterwards whether it fits the width they promise. Writing a number gives
its digits without a leading zero.
-/

namespace Imap.Decimal

/-- The value of a run of digits, the most significant first. -/
def value (digits : Bytes) : Nat :=
  digits.foldl (fun total digit => 10 * total + (digit.toNat - 48)) 0

/-- The digit that stands for a number below ten. -/
def digit (number : Nat) : UInt8 :=
  (48 + number).toUInt8

/-- The decimal digits of a number, without a leading zero unless the number is zero. -/
def digits (number : Nat) : Bytes :=
  if number < 10 then [digit number]
  else digits (number / 10) ++ [digit (number % 10)]

end Imap.Decimal
