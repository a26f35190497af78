/-!
# Decimal digits

Powers of ten and of two, the value of a run of digits, and the number of digits
of a value.
-/

namespace WeightedParsing.Decimal

def powerOfTen (n : Nat) : Nat := Nat.pow 10 n

def powerOfTwo (n : Nat) : Nat := Nat.pow 2 n

/-- The number of decimal digits of `n`; zero has one digit. -/
def digitCount (n : Nat) : Nat :=
  if n < 10 then 1 else digitCount (n / 10) + 1

def digitsValue (digits : List Char) : Nat :=
  digits.foldl (fun value c => 10 * value + (c.toNat - '0'.toNat)) 0

end WeightedParsing.Decimal
