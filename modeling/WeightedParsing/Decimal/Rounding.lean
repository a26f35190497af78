import WeightedParsing.Decimal.Digits

/-!
# Writing floats as decimals

A finite float is a fraction with a power of two below it.  It is written with a
fixed number of places after the point, or with a fixed number of significant
digits and an exponent; either way the exact value is rounded to the nearest
decimal of that form, and a half goes to the even neighbour.
-/

namespace WeightedParsing.Decimal

/-- The integer nearest to a quotient; a half goes to the even neighbour. -/
def roundQuotient (numerator denominator : Nat) : Nat :=
  let below := numerator / denominator
  let twice := 2 * (numerator % denominator)
  if twice < denominator then below
  else if denominator < twice then below + 1
  else below + below % 2

/-- What the bits of a float stand for. -/
inductive FloatValue where
  | nan
  | infinite (negative : Bool)
  | finite (negative : Bool) (numerator denominator : Nat)

/-- Reads sign, exponent and significand out of the bits of a float. -/
def FloatValue.ofFloat (x : Float) : FloatValue :=
  let bits := x.toBits.toNat
  let negative := bits / powerOfTwo 63 == 1
  let exponent := bits / powerOfTwo 52 % powerOfTwo 11
  let fraction := bits % powerOfTwo 52
  if exponent == 2047 then
    if fraction == 0 then .infinite negative else .nan
  else
    let significand := if exponent == 0 then fraction else powerOfTwo 52 + fraction
    let power := max exponent 1
    if 1075 ≤ power then .finite negative (significand * powerOfTwo (power - 1075)) 1
    else .finite negative significand (powerOfTwo (1075 - power))

/-- How numbers with a fixed number of places are written. -/
structure FixedFormat where
  places : Nat
  /-- Whether a minus sign stands before a negative number that rounds to zero. -/
  signedZero : Bool
  nan : String

/-- How numbers with an exponent are written; a zero has no sign. -/
structure ScientificFormat where
  places : Nat
  nan : String

def infinityText (negative : Bool) : String := if negative then "-inf" else "inf"

/-- The digits of `n` with zeros before them to fill `width`. -/
def paddedDigits (width n : Nat) : String :=
  let digits := toString n
  String.ofList (List.replicate (width - digits.length) '0') ++ digits

/-- `n` divided by ten to the `places`, with a point. -/
def pointedDigits (places n : Nat) : String :=
  if places == 0 then toString n
  else
    toString (n / powerOfTen places) ++ "." ++ paddedDigits places (n % powerOfTen places)

def FixedFormat.text (format : FixedFormat) (x : Float) : String :=
  match FloatValue.ofFloat x with
  | .nan => format.nan
  | .infinite negative => infinityText negative
  | .finite negative numerator denominator =>
      let scaled := roundQuotient (numerator * powerOfTen format.places) denominator
      let minus := negative && (format.signedZero || scaled != 0)
      (if minus then "-" else "") ++ pointedDigits format.places scaled

/-- The exponent of ten of the first significant digit of a positive fraction. -/
def leadingExponent (numerator denominator : Nat) : Int :=
  if denominator ≤ numerator then
    (digitCount (numerator / denominator) : Int) - 1
  else
    -(digitCount ((denominator - 1) / numerator) : Int)

/-- A fraction times a power of ten, rounded to the nearest integer. -/
def roundScaled (numerator denominator : Nat) (power : Int) : Nat :=
  if 0 ≤ power then roundQuotient (numerator * powerOfTen power.natAbs) denominator
  else roundQuotient numerator (denominator * powerOfTen power.natAbs)

def ScientificFormat.text (format : ScientificFormat) (x : Float) : String :=
  match FloatValue.ofFloat x with
  | .nan => format.nan
  | .infinite negative => infinityText negative
  | .finite negative numerator denominator =>
      if numerator == 0 then pointedDigits format.places 0 ++ "e0"
      else
        let exponent := leadingExponent numerator denominator
        let rounded :=
          roundScaled numerator denominator (format.places - exponent)
        let (rounded, exponent) :=
          if rounded == powerOfTen (format.places + 1) then
            (powerOfTen format.places, exponent + 1)
          else (rounded, exponent)
        (if negative then "-" else "") ++ pointedDigits format.places rounded ++
          "e" ++ toString exponent

end WeightedParsing.Decimal
