import WeightedParsing.Weight.Algebra

/-!
# Logarithms as weights

Two algebras store the natural logarithm of a weight, so that a product of many
small rule weights stays above zero.  Parts of a derivation are added;
alternatives are added under the logarithm, or the largest is kept.
-/

namespace WeightedParsing

namespace LogSpace

def bottom : Float := -1 / 0

/-- The logarithm of `1 + x`, also where `x` is too small to show in `1 + x`:
there the quotient restores what rounding the sum took away. -/
def lnOnePlus (x : Float) : Float :=
  let u := 1 + x
  if u == 1 then x else Float.log u * x / (u - 1)

/-- The logarithm of the sum of the two numbers with logarithms `a` and `b`. -/
def addExp (a b : Float) : Float :=
  let (high, low) := if Ranked.le b a then (a, b) else (b, a)
  if low == bottom then high else high + lnOnePlus (Float.exp (low - high))

end LogSpace

/-- Logarithms of weights under addition and multiplication of the weights. -/
structure LogSumProduct where
  log : Float

/-- Logarithms of weights under maximum and multiplication of the weights. -/
structure LogMaxProduct where
  log : Float

instance : WeightAlgebra Float LogSumProduct where
  zero := ⟨LogSpace.bottom⟩
  one := ⟨0⟩
  add a b := ⟨LogSpace.addExp a.log b.log⟩
  mul a b := ⟨a.log + b.log⟩
  beq a b := a.log == b.log
  lt a b := Ranked.lt a.log b.log
  le a b := Ranked.le a.log b.log
  selective := false
  logSpace := true
  ofWeight w := ⟨Float.log w⟩
  toWeight a := Float.exp a.log
  logWeight a := a.log
  divide a b := ⟨a.log - b.log⟩

instance : WeightAlgebra Float LogMaxProduct where
  zero := ⟨LogSpace.bottom⟩
  one := ⟨0⟩
  add a b := ⟨Ranked.larger a.log b.log⟩
  mul a b := ⟨a.log + b.log⟩
  beq a b := a.log == b.log
  lt a b := Ranked.lt a.log b.log
  le a b := Ranked.le a.log b.log
  selective := true
  logSpace := true
  ofWeight w := ⟨Float.log w⟩
  toWeight a := Float.exp a.log
  logWeight a := a.log
  divide a b := ⟨a.log - b.log⟩

end WeightedParsing
