/-!
# Decimal digits

The numbers that lists of digits write, and the digits of a number.
-/

namespace StateEngine.Text

def digitsValue (ds : List Char) : Nat := ds.foldl (fun n c => 10 * n + (c.toNat - 48)) 0

/-- The number that a text of digits writes; `none` when it is empty or has another character. -/
def natural? (s : String) : Option Nat :=
  if !s.isEmpty && s.toList.all Char.isDigit then some (digitsValue s.toList) else none

/-- The number of 64 bits, without sign, that a text of digits writes. -/
def count? (s : String) : Option Nat := (natural? s).filter (· < Nat.pow 2 64)

/-- `n` in decimal with zeros in front up to `width` digits. -/
def padded (width n : Nat) : List Char :=
  let ds := Nat.toDigits 10 n
  List.replicate (width - ds.length) '0' ++ ds

end StateEngine.Text
