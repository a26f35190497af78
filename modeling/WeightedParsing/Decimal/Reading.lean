import WeightedParsing.Decimal.Digits

/-!
# Reading decimal numbers

A number is written as digits with an optional point before the last of them,
and an optional exponent.  What is read is the longest such text at the front;
it stands for an exact decimal, which rounds to the nearest float.
-/

namespace WeightedParsing.Decimal

/-- The sign and digits after the letter of an exponent. -/
structure ExponentText where
  letter : Char
  sign : Option Char
  digits : List Char

structure NumberText where
  whole : List Char
  fraction : Option (List Char)
  exponent : Option ExponentText

def ExponentText.chars (text : ExponentText) : List Char :=
  text.letter :: (text.sign.toList ++ text.digits)

def ExponentText.value (text : ExponentText) : Int :=
  if text.sign == some '-' then -(digitsValue text.digits : Int)
  else digitsValue text.digits

def NumberText.chars (text : NumberText) : List Char :=
  text.whole ++
    (match text.fraction with
      | some fraction => '.' :: fraction
      | none => []) ++
    (match text.exponent with
      | some exponent => exponent.chars
      | none => [])

/-- All digits of the number without its exponent, as one number. -/
def NumberText.coefficient (text : NumberText) : Nat :=
  digitsValue (text.whole ++ text.fraction.getD [])

/-- The power of ten by which the coefficient is multiplied. -/
def NumberText.scale (text : NumberText) : Int :=
  (text.exponent.map ExponentText.value).getD 0 -
    ((text.fraction.getD []).length : Int)

def scanSign : List Char → Option Char × List Char
  | '-' :: rest => (some '-', rest)
  | '+' :: rest => (some '+', rest)
  | rest => (none, rest)

/-- Reads an exponent off the front of a text, if a complete one stands there. -/
def scanExponent (text : List Char) : Option ExponentText × List Char :=
  match text with
  | c :: rest =>
      let signed := scanSign rest
      let digits := signed.2.takeWhile Char.isDigit
      if (c = 'e' ∨ c = 'E') ∧ digits ≠ [] then
        (some ⟨c, signed.1, digits⟩, signed.2.dropWhile Char.isDigit)
      else (none, text)
  | [] => (none, text)

/-- Reads a point and the digits after it off the front of a text.  A point that
no digit follows is not read. -/
def scanFraction (text : List Char) : Option (List Char) × List Char :=
  match text with
  | '.' :: rest =>
      let digits := rest.takeWhile Char.isDigit
      if digits ≠ [] then (some digits, rest.dropWhile Char.isDigit)
      else (none, text)
  | _ => (none, text)

/-- Reads the longest number off the front of a text. -/
def scanNumber (text : List Char) : Option (NumberText × List Char) :=
  let whole := text.takeWhile Char.isDigit
  let fraction := scanFraction (text.dropWhile Char.isDigit)
  let exponent := scanExponent fraction.2
  if whole = [] ∧ fraction.1 = none then none
  else some (⟨whole, fraction.1, exponent.1⟩, exponent.2)

/-- The float nearest to `coefficient * 10 ^ scale`.  Magnitudes that are far
out of range are settled without computing the power. -/
def toFloat (coefficient : Nat) (scale : Int) : Float :=
  if coefficient = 0 then 0
  else
    let magnitude := (digitCount coefficient : Int) + scale
    if magnitude > 310 then 1 / 0
    else if magnitude < -330 then 0
    else Float.ofScientific coefficient (scale < 0) scale.natAbs

def NumberText.toFloat (text : NumberText) : Float :=
  Decimal.toFloat text.coefficient text.scale

theorem length_scanSign_le (text : List Char) :
    (scanSign text).2.length ≤ text.length := by
  unfold scanSign
  split <;> simp

theorem length_scanExponent_le (text : List Char) :
    (scanExponent text).2.length ≤ text.length := by
  unfold scanExponent
  split
  · rename_i c rest
    have hsign := length_scanSign_le rest
    have hdrop :=
      (List.dropWhile_sublist Char.isDigit (l := (scanSign rest).2)).length_le
    dsimp only
    split
    · rw [List.length_cons]
      exact Nat.le_succ_of_le (Nat.le_trans hdrop hsign)
    · exact Nat.le_refl _
  · exact Nat.le_refl _

theorem length_scanFraction_le (text : List Char) :
    (scanFraction text).2.length ≤ text.length := by
  unfold scanFraction
  split
  · rename_i rest
    have hdrop := (List.dropWhile_sublist Char.isDigit (l := rest)).length_le
    dsimp only
    split
    · rw [List.length_cons]
      exact Nat.le_succ_of_le hdrop
    · exact Nat.le_refl _
  · exact Nat.le_refl _

theorem length_scanNumber_le {text rest : List Char} {number : NumberText}
    (h : scanNumber text = some (number, rest)) : rest.length ≤ text.length := by
  unfold scanNumber at h
  dsimp only at h
  split at h
  · exact absurd h (by simp)
  · simp only [Option.some.injEq, Prod.mk.injEq] at h
    rw [← h.2]
    have hwhole :=
      (List.dropWhile_sublist Char.isDigit (l := text)).length_le
    exact Nat.le_trans (length_scanExponent_le _)
      (Nat.le_trans (length_scanFraction_le _) hwhole)

end WeightedParsing.Decimal
