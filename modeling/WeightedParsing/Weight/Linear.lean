import WeightedParsing.Weight.Algebra

/-!
# Probabilities as weights

Two algebras store a weight as it is and multiply the parts of a derivation.
They differ in what an entry keeps of its alternatives: their sum, or the
largest of them.
-/

namespace WeightedParsing

/-- Weights under addition and multiplication; charts over them hold marginals. -/
structure SumProduct (K : Type) where
  value : K

/-- Weights under maximum and multiplication; charts over them hold
max-marginals and back-pointers. -/
structure MaxProduct (K : Type) where
  value : K

variable {K : Type}

instance [Scalar K] [BEq K] : WeightAlgebra K (SumProduct K) where
  zero := ⟨0⟩
  one := ⟨1⟩
  add a b := ⟨a.value + b.value⟩
  mul a b := ⟨a.value * b.value⟩
  beq a b := a.value == b.value
  lt a b := Ranked.lt a.value b.value
  le a b := Ranked.le a.value b.value
  selective := false
  logSpace := false
  ofWeight w := ⟨w⟩
  toWeight a := a.value
  logWeight a := Scalar.ln a.value
  divide a b := ⟨a.value / b.value⟩

instance [Scalar K] [BEq K] : WeightAlgebra K (MaxProduct K) where
  zero := ⟨0⟩
  one := ⟨1⟩
  add a b := ⟨Ranked.larger a.value b.value⟩
  mul a b := ⟨a.value * b.value⟩
  beq a b := a.value == b.value
  lt a b := Ranked.lt a.value b.value
  le a b := Ranked.le a.value b.value
  selective := true
  logSpace := false
  ofWeight w := ⟨w⟩
  toWeight a := a.value
  logWeight a := Scalar.ln a.value
  divide a b := ⟨a.value / b.value⟩

end WeightedParsing
