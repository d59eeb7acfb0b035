/-!
# BranchingTime — decimal numerals

Identifiers carry 32-bit numbers in decimal. A numeral is one or more ASCII
digits; leading zeros are allowed and any length is read, but the value has
to fit in 32 bits.
-/

namespace BranchingTime.Text

/-- The number `n` with one more digit behind it, if that still fits in 32 bits. -/
def appendDigit? (n : UInt32) (digit : Char) : Option UInt32 :=
  let value := n.toNat * 10 + (digit.toNat - '0'.toNat)
  if value < UInt32.size then some (UInt32.ofNat value) else none

/-- The 32-bit number written by `digits`, if they are a numeral and the
value fits. Signs, blanks and digits of other scripts are refused. The digits
are taken up from left to right, and the first that makes the number too large
ends the reading. -/
def word32? (digits : List Char) : Option UInt32 :=
  if digits.isEmpty || !digits.all Char.isDigit then
    none
  else
    digits.foldlM appendDigit? 0

end BranchingTime.Text
