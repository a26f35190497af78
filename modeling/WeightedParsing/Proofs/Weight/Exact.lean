import Mathlib.Algebra.Order.Ring.Nat
import Mathlib.Algebra.Order.Ring.Rat
import Mathlib.Algebra.Order.Field.Basic
import WeightedParsing.Proofs.Weight.Laws
import WeightedParsing.Weight.Linear

/-!
# Exact arithmetic

The laws hold of the linear algebras when the scalars below them are exact.
Rational numbers are such scalars, and so are natural numbers, over which a sum
of weights counts derivations.  Their logarithms are rounded to powers of two:
no law speaks of logarithms.
-/

namespace WeightedParsing

/-- Scalars that are added, multiplied and compared without rounding. -/
class ExactScalar (K : Type) [Scalar K] [BEq K] : Prop where
  add_assoc : ∀ a b c : K, a + b + c = a + (b + c)
  add_comm : ∀ a b : K, a + b = b + a
  zero_add : ∀ a : K, 0 + a = a
  mul_assoc : ∀ a b c : K, a * b * c = a * (b * c)
  mul_comm : ∀ a b : K, a * b = b * a
  one_mul : ∀ a : K, 1 * a = a
  left_distrib : ∀ a b c : K, a * (b + c) = a * b + a * c
  zero_mul : ∀ a : K, 0 * a = 0
  beq_iff : ∀ a b : K, (a == b) = true ↔ a = b

/-- The scalars of an ordered semiring. -/
@[reducible] def Scalar.ofOrdered {K : Type} [CommSemiring K] [LinearOrder K] [Div K]
    (ln : K → K) : Scalar K where
  zero := 0
  one := 1
  add a b := a + b
  mul a b := a * b
  natCast n := n
  lt a b := decide (a < b)
  le a b := decide (a ≤ b)
  ln := ln

instance : Scalar Nat := Scalar.ofOrdered fun a => Nat.log2 a

instance : Scalar ℚ :=
  Scalar.ofOrdered fun a => Nat.log2 a.num.natAbs - Nat.log2 a.den

theorem exactScalar_ofOrdered {K : Type} [CommSemiring K] [LinearOrder K] [Div K]
    (ln : K → K) : @ExactScalar K (Scalar.ofOrdered ln) instBEqOfDecidableEq :=
  @ExactScalar.mk K (Scalar.ofOrdered ln) instBEqOfDecidableEq add_assoc add_comm
    zero_add mul_assoc mul_comm one_mul mul_add zero_mul fun _ _ => beq_iff_eq

instance : ExactScalar Nat := exactScalar_ofOrdered _

instance : ExactScalar ℚ := exactScalar_ofOrdered _

theorem SumProduct.ext_value {K : Type} {a b : SumProduct K}
    (h : a.value = b.value) : a = b := by
  cases a
  cases b
  exact congrArg SumProduct.mk h

instance {K : Type} [Scalar K] [BEq K] [ExactScalar K] :
    CommutativeWeights K (SumProduct K) where
  add_assoc a b c := SumProduct.ext_value (ExactScalar.add_assoc _ _ _)
  add_comm a b := SumProduct.ext_value (ExactScalar.add_comm _ _)
  zero_add a := SumProduct.ext_value (ExactScalar.zero_add _)
  mul_assoc a b c := SumProduct.ext_value (ExactScalar.mul_assoc _ _ _)
  mul_comm a b := SumProduct.ext_value (ExactScalar.mul_comm _ _)
  one_mul a := SumProduct.ext_value (ExactScalar.one_mul _)
  mul_one a := SumProduct.ext_value
    ((ExactScalar.mul_comm _ _).trans (ExactScalar.one_mul _))
  left_distrib a b c := SumProduct.ext_value (ExactScalar.left_distrib _ _ _)
  right_distrib a b c := SumProduct.ext_value (by
    change (a.value + b.value) * c.value = a.value * c.value + b.value * c.value
    rw [ExactScalar.mul_comm, ExactScalar.left_distrib,
      ExactScalar.mul_comm c.value a.value, ExactScalar.mul_comm c.value b.value])
  zero_mul a := SumProduct.ext_value (ExactScalar.zero_mul _)
  mul_zero a := SumProduct.ext_value
    ((ExactScalar.mul_comm _ _).trans (ExactScalar.zero_mul _))
  isZero_iff a := by
    change (a.value == (0 : K)) = true ↔ a = 0
    rw [ExactScalar.beq_iff]
    exact ⟨fun h => SumProduct.ext_value h, fun h => congrArg SumProduct.value h⟩

instance : InvertibleWeights ℚ (SumProduct ℚ) where
  divide_mul_cancel a b hb := by
    have hvalue : b.value ≠ 0 := fun h => hb (SumProduct.ext_value h)
    exact SumProduct.ext_value (div_mul_cancel₀ a.value hvalue)
  toWeight_zero := rfl
  scalar_zero_add k := ExactScalar.zero_add k

/-! ## Reading products back -/

/-- Products of weights are read as the products of what the factors are read as.  A
product with zero is zero, and zero and a weight add up to that weight, or to zero if the
algebra takes zero for the larger of the two. -/
class ExactProducts (K : outParam Type) (S : Type) [Scalar K] [WeightAlgebra K S] :
    Prop where
  toWeight_mul : ∀ a b : S,
    WeightAlgebra.toWeight (a * b) = WeightAlgebra.toWeight a * WeightAlgebra.toWeight b
  isZero_mul_zero : ∀ a : S, WeightAlgebra.isZero (a * 0) = true
  zero_add : ∀ a : S, 0 + a = a ∨ 0 + a = 0

instance {K : Type} [Scalar K] [BEq K] [ExactScalar K] :
    ExactProducts K (SumProduct K) where
  toWeight_mul _ _ := rfl
  isZero_mul_zero a := isZero_eq_true_iff.mpr (LawfulWeights.mul_zero a)
  zero_add a := .inl (LawfulWeights.zero_add a)

instance {K : Type} [Scalar K] [BEq K] [ExactScalar K] :
    ExactProducts K (MaxProduct K) where
  toWeight_mul _ _ := rfl
  isZero_mul_zero a := by
    change (a.value * 0 == (0 : K)) = true
    rw [ExactScalar.mul_comm, ExactScalar.zero_mul, ExactScalar.beq_iff]
  zero_add a := by
    change (⟨Ranked.larger 0 a.value⟩ : MaxProduct K) = a ∨
      (⟨Ranked.larger 0 a.value⟩ : MaxProduct K) = ⟨0⟩
    unfold Ranked.larger
    split_ifs
    · exact .inl rfl
    · exact .inr rfl
    · exact .inl rfl

end WeightedParsing
