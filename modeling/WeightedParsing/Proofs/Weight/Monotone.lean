import Mathlib.Algebra.Order.BigOperators.Group.List
import WeightedParsing.Proofs.Weight.Selective

/-!
# Ordered weights

Leaving derivations out of a sum lowers it, if none of them weighs less than nothing
and sums and products grow with their operands.  Exact numbers are such weights, both
where alternatives are added up and where only the largest is kept.
-/

namespace WeightedParsing

/-- Commutative weights in an order that sums respect, and products with weights of at
least zero. -/
class OrderedWeights (K : outParam Type) (S : Type) [WeightAlgebra K S] :
    Prop extends CommutativeWeights K S where
  le_refl : ∀ a : S, Ranked.le a a = true
  le_trans : ∀ {a b c : S}, Ranked.le a b = true → Ranked.le b c = true →
    Ranked.le a c = true
  le_antisymm : ∀ {a b : S}, Ranked.le a b = true → Ranked.le b a = true → a = b
  add_le_add_left : ∀ {a b : S} (c : S), Ranked.le a b = true →
    Ranked.le (c + a) (c + b) = true
  mul_le_mul_left : ∀ {a b c : S}, Ranked.le 0 c = true → Ranked.le a b = true →
    Ranked.le (c * a) (c * b) = true

section Sums

variable {K S : Type} [WeightAlgebra K S] [OrderedWeights K S] {α : Type}

attribute [local instance] LawfulWeights.semiring

@[reducible] def OrderedWeights.partialOrder : PartialOrder S where
  le a b := Ranked.le a b = true
  le_refl := OrderedWeights.le_refl
  le_trans _ _ _ := OrderedWeights.le_trans
  le_antisymm _ _ := OrderedWeights.le_antisymm

attribute [local instance] OrderedWeights.partialOrder

theorem OrderedWeights.isOrderedAddMonoid : IsOrderedAddMonoid S where
  add_le_add_left a b hab c := by
    rw [add_comm a, add_comm b]
    exact OrderedWeights.add_le_add_left c hab
  add_le_add_right _ _ hab c := OrderedWeights.add_le_add_left c hab

attribute [local instance] OrderedWeights.isOrderedAddMonoid

theorem zero_le_mul {a b : S} (ha : Ranked.le 0 a = true) (hb : Ranked.le 0 b = true) :
    Ranked.le 0 (a * b) = true := by
  have hmul : Ranked.le (a * 0) (a * b) = true := OrderedWeights.mul_le_mul_left ha hb
  rwa [mul_zero] at hmul

theorem zero_le_add {a b : S} (ha : Ranked.le 0 a = true) (hb : Ranked.le 0 b = true) :
    Ranked.le 0 (a + b) = true := by
  have hsum : (0 : S) ≤ a + b := add_nonneg ha hb
  exact hsum

theorem eq_zero_of_add_eq_zero {a b : S} (ha : Ranked.le 0 a = true)
    (hb : Ranked.le 0 b = true) (hsum : a + b = 0) : a = 0 := by
  have hle : a ≤ a + b := le_add_of_nonneg_right hb
  rw [hsum] at hle
  exact le_antisymm hle ha

theorem sum_le_sum_of_subperm {entries others : List α} {f : α → S}
    (hsubperm : entries.Subperm others)
    (hnonneg : ∀ a ∈ others, Ranked.le 0 (f a) = true) :
    Ranked.le (entries.map f).sum (others.map f).sum = true := by
  obtain ⟨part, hperm, hpart⟩ := hsubperm
  rw [← (hperm.map f).sum_eq]
  apply (hpart.map f).sum_le_sum
  intro weight hweight
  obtain ⟨a, ha, rfl⟩ := List.mem_map.mp hweight
  exact hnonneg a ha

end Sums

/-! ## Exact numbers -/

/-- Exact scalars in an order that sums respect, and products with scalars of at least
zero. -/
class OrderedScalar (K : Type) [Scalar K] [BEq K] : Prop extends ExactScalar K where
  le_refl : ∀ a : K, Ranked.le a a = true
  le_trans : ∀ {a b c : K}, Ranked.le a b = true → Ranked.le b c = true →
    Ranked.le a c = true
  le_antisymm : ∀ {a b : K}, Ranked.le a b = true → Ranked.le b a = true → a = b
  add_le_add_left : ∀ {a b : K} (c : K), Ranked.le a b = true →
    Ranked.le (c + a) (c + b) = true
  mul_le_mul_left : ∀ {a b c : K}, Ranked.le 0 c = true → Ranked.le a b = true →
    Ranked.le (c * a) (c * b) = true

theorem orderedScalar_ofOrdered {K : Type} [CommSemiring K] [LinearOrder K]
    [IsOrderedRing K] [Div K] (ln : K → K) :
    @OrderedScalar K (Scalar.ofOrdered ln) instBEqOfDecidableEq :=
  @OrderedScalar.mk K (Scalar.ofOrdered ln) instBEqOfDecidableEq
    (exactScalar_ofOrdered ln)
    (fun a => decide_eq_true (le_refl a))
    (fun hab hbc => decide_eq_true
      ((of_decide_eq_true hab).trans (of_decide_eq_true hbc)))
    (fun hab hba => le_antisymm (of_decide_eq_true hab) (of_decide_eq_true hba))
    (fun c hab => decide_eq_true (add_le_add_right (of_decide_eq_true hab) c))
    (fun hc hab => decide_eq_true
      (mul_le_mul_of_nonneg_left (of_decide_eq_true hab) (of_decide_eq_true hc)))

instance : OrderedScalar Nat := orderedScalar_ofOrdered _

instance : OrderedScalar ℚ := orderedScalar_ofOrdered _

instance {K : Type} [Scalar K] [BEq K] [OrderedScalar K] :
    OrderedWeights K (SumProduct K) where
  mul_comm := CommutativeWeights.mul_comm
  le_refl a := OrderedScalar.le_refl a.value
  le_trans := OrderedScalar.le_trans (K := K)
  le_antisymm hab hba := SumProduct.ext_value (OrderedScalar.le_antisymm hab hba)
  add_le_add_left c hab := OrderedScalar.add_le_add_left c.value hab
  mul_le_mul_left hc hab := OrderedScalar.mul_le_mul_left (K := K) hc hab

theorem SelectiveWeights.add_le_add_left {K S : Type} [WeightAlgebra K S]
    [SelectiveWeights K S] {a b : S} (c : S) (hab : Ranked.le a b = true) :
    Ranked.le (c + a) (c + b) = true := by
  rw [MaximumWeights.add_eq, MaximumWeights.add_eq]
  by_cases hca : Ranked.le c a = true
  · rw [if_pos hca, if_pos (TotallyRanked.le_trans hca hab)]
    exact hab
  · rw [if_neg hca]
    split
    · assumption
    · exact Ranked.le_refl c

instance {K : Type} [Scalar K] [BEq K] [ExactOrder K] :
    OrderedWeights K (MaxProduct K) where
  mul_comm := CommutativeWeights.mul_comm
  le_refl := Ranked.le_refl
  le_trans := TotallyRanked.le_trans
  le_antisymm := MaximumWeights.le_antisymm
  add_le_add_left := SelectiveWeights.add_le_add_left
  mul_le_mul_left _ hab := SelectiveWeights.mul_le_mul_left _ hab

end WeightedParsing
