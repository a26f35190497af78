import WeightedParsing.Proofs.Weight.Exact
import WeightedParsing.Proofs.Weight.Order

/-!
# Selective weights

In a selective algebra a sum is the larger of its operands: weights are in a total
order with zero at its bottom.  The summed weight of some derivations is then the
weight of a heaviest one.  That a heaviest derivation has heaviest parts asks for
more: products grow with their factors, and none is zero without a zero factor.
-/

namespace WeightedParsing

/-- Sums are maxima of a total order with zero at its bottom. -/
class MaximumWeights (K : outParam Type) (S : Type) [WeightAlgebra K S] :
    Prop extends LawfulWeights K S, TotallyRanked S where
  selective : WeightAlgebra.selective S = true
  le_antisymm : ∀ {a b : S}, Ranked.le a b = true → Ranked.le b a = true → a = b
  add_eq : ∀ a b : S, a + b = if Ranked.le a b then b else a
  zero_le : ∀ a : S, Ranked.le 0 a = true

/-- Sums are maxima of a total order that products respect. -/
class SelectiveWeights (K : outParam Type) (S : Type) [WeightAlgebra K S] :
    Prop extends MaximumWeights K S where
  mul_le_mul_left : ∀ {a b : S} (c : S), Ranked.le a b = true →
    Ranked.le (c * a) (c * b) = true
  mul_le_mul_right : ∀ {a b : S} (c : S), Ranked.le a b = true →
    Ranked.le (a * c) (b * c) = true
  eq_zero_of_mul_eq_zero : ∀ {a b : S}, a * b = 0 → a = 0 ∨ b = 0

instance {K S : Type} [WeightAlgebra K S] [SelectiveWeights K S] :
    IntegralWeights K S where
  eq_zero_of_mul_eq_zero := SelectiveWeights.eq_zero_of_mul_eq_zero

section Sums

variable {K S : Type} [WeightAlgebra K S] [MaximumWeights K S] {α : Type}

attribute [local instance] LawfulWeights.semiring

theorem le_sum_of_mem {entries : List α} {a : α} (f : α → S) (ha : a ∈ entries) :
    Ranked.le (f a) (entries.map f).sum = true := by
  induction entries with
  | nil => cases ha
  | cons b rest ih =>
      rw [List.map_cons, List.sum_cons, MaximumWeights.add_eq]
      rcases List.mem_cons.mp ha with rfl | ha
      · split
        · assumption
        · exact Ranked.le_refl _
      · split
        · exact ih ha
        · rename_i hnot
          exact TotallyRanked.le_trans (ih ha)
            ((TotallyRanked.le_total _ _).resolve_left hnot)

/-- A sum that is not zero is attained. -/
theorem exists_eq_sum {entries : List α} {f : α → S} (h : (entries.map f).sum ≠ 0) :
    ∃ a ∈ entries, f a = (entries.map f).sum := by
  induction entries with
  | nil => exact absurd rfl h
  | cons b rest ih =>
      rw [List.map_cons, List.sum_cons, MaximumWeights.add_eq] at h ⊢
      split at h
      · rename_i hle
        rw [if_pos hle]
        obtain ⟨a, ha, heq⟩ := ih h
        exact ⟨a, List.mem_cons_of_mem _ ha, heq⟩
      · rename_i hnot
        rw [if_neg hnot]
        exact ⟨b, by simp, rfl⟩

theorem eq_zero_of_sum_eq_zero {entries : List α} {a : α} {f : α → S}
    (hsum : (entries.map f).sum = 0) (ha : a ∈ entries) : f a = 0 := by
  have hle := le_sum_of_mem f ha
  rw [hsum] at hle
  exact MaximumWeights.le_antisymm hle (MaximumWeights.zero_le _)

theorem sum_le_sum_of_subset {entries entries' : List α} (f : α → S)
    (h : entries ⊆ entries') :
    Ranked.le (entries.map f).sum (entries'.map f).sum = true := by
  by_cases hzero : (entries.map f).sum = 0
  · rw [hzero]
    exact MaximumWeights.zero_le _
  · obtain ⟨a, ha, hsum⟩ := exists_eq_sum hzero
    rw [← hsum]
    exact le_sum_of_mem f (h ha)

/-- A sum is the weight of an entry that no other outweighs. -/
theorem sum_eq_of_isMax {entries : List α} {a : α} {f : α → S} (ha : a ∈ entries)
    (hmax : ∀ b ∈ entries, Ranked.le (f b) (f a) = true) : (entries.map f).sum = f a := by
  by_cases hzero : (entries.map f).sum = 0
  · rw [hzero, eq_zero_of_sum_eq_zero hzero ha]
  · obtain ⟨b, hb, hsum⟩ := exists_eq_sum hzero
    rw [← hsum]
    refine MaximumWeights.le_antisymm (hmax b hb) ?_
    rw [hsum]
    exact le_sum_of_mem f ha

end Sums

/-! ## Maxima of exact scalars -/

/-- Exact scalars in a total order with zero at its bottom. -/
class ExactOrder (K : Type) [Scalar K] [BEq K] :
    Prop extends ExactScalar K, TotallyRanked K where
  le_antisymm : ∀ {a b : K}, Ranked.le a b = true → Ranked.le b a = true → a = b
  zero_le : ∀ a : K, Ranked.le 0 a = true
  mul_le_mul_left : ∀ {a b : K} (c : K), Ranked.le a b = true →
    Ranked.le (c * a) (c * b) = true
  eq_zero_of_mul_eq_zero : ∀ {a b : K}, a * b = 0 → a = 0 ∨ b = 0

instance : ExactOrder Nat where
  le_total a b := by simpa [Ranked.le] using Nat.le_total a b
  le_trans := by
    intro a b c hab hbc
    simp only [Ranked.le, decide_eq_true_eq] at *
    exact Nat.le_trans hab hbc
  lt_eq_not_le a b := by
    change decide (a < b) = !decide (b ≤ a)
    simp only [← decide_not, Nat.not_le]
  le_antisymm := by
    intro a b hab hba
    simp only [Ranked.le, decide_eq_true_eq] at *
    exact Nat.le_antisymm hab hba
  zero_le a := decide_eq_true (Nat.zero_le a)
  mul_le_mul_left := by
    intro a b c hab
    simp only [Ranked.le, decide_eq_true_eq] at *
    exact Nat.mul_le_mul_left c hab
  eq_zero_of_mul_eq_zero := Nat.mul_eq_zero.mp

theorem MaxProduct.ext_value {K : Type} {a b : MaxProduct K}
    (h : a.value = b.value) : a = b := by
  cases a
  cases b
  exact congrArg MaxProduct.mk h

section MaxProduct

variable {K : Type} [Scalar K] [BEq K] [ExactOrder K]

theorem larger_eq (a b : K) : Ranked.larger a b = if Ranked.le a b then b else a := by
  unfold Ranked.larger
  rw [if_pos (Ranked.le_refl a), TotallyRanked.lt_eq_not_le]
  by_cases hba : Ranked.le b a = true
  · by_cases hab : Ranked.le a b = true
    · simp [ExactOrder.le_antisymm hab hba]
    · simp [hba, hab]
  · have hab := (TotallyRanked.le_total a b).resolve_right hba
    simp [hba, hab]

theorem larger_comm (a b : K) : Ranked.larger a b = Ranked.larger b a := by
  rw [larger_eq, larger_eq]
  by_cases hab : Ranked.le a b = true
  · by_cases hba : Ranked.le b a = true
    · simp [ExactOrder.le_antisymm hab hba]
    · simp [hab, hba]
  · simp [hab, (TotallyRanked.le_total a b).resolve_left hab]

theorem larger_assoc (a b c : K) :
    Ranked.larger (Ranked.larger a b) c = Ranked.larger a (Ranked.larger b c) := by
  simp only [larger_eq]
  by_cases hab : Ranked.le a b = true
  · by_cases hbc : Ranked.le b c = true
    · have hac := TotallyRanked.le_trans hab hbc
      simp [hab, hbc, hac]
    · simp [hab, hbc]
  · have hba := (TotallyRanked.le_total a b).resolve_left hab
    by_cases hbc : Ranked.le b c = true
    · simp [hab, hbc]
    · have hac : ¬Ranked.le a c = true := by
        intro hac
        exact hbc (TotallyRanked.le_trans hba hac)
      simp [hab, hbc, hac]

theorem mul_larger (a b c : K) :
    a * Ranked.larger b c = Ranked.larger (a * b) (a * c) := by
  rw [larger_eq, larger_eq]
  by_cases hbc : Ranked.le b c = true
  · simp [hbc, ExactOrder.mul_le_mul_left a hbc]
  · have hcb := (TotallyRanked.le_total b c).resolve_left hbc
    have hmul := ExactOrder.mul_le_mul_left a hcb
    by_cases hle : Ranked.le (a * b) (a * c) = true
    · simp [hbc, ExactOrder.le_antisymm hle hmul]
    · simp [hbc, hle]

instance : SelectiveWeights K (MaxProduct K) where
  add_assoc a b c := MaxProduct.ext_value (larger_assoc _ _ _)
  add_comm a b := MaxProduct.ext_value (larger_comm _ _)
  zero_add a := MaxProduct.ext_value (by
    change Ranked.larger 0 a.value = a.value
    rw [larger_eq, if_pos (ExactOrder.zero_le _)])
  mul_assoc a b c := MaxProduct.ext_value (ExactScalar.mul_assoc _ _ _)
  one_mul a := MaxProduct.ext_value (ExactScalar.one_mul _)
  mul_one a := MaxProduct.ext_value
    ((ExactScalar.mul_comm _ _).trans (ExactScalar.one_mul _))
  left_distrib a b c := MaxProduct.ext_value (mul_larger _ _ _)
  right_distrib a b c := MaxProduct.ext_value (by
    change Ranked.larger a.value b.value * c.value =
      Ranked.larger (a.value * c.value) (b.value * c.value)
    rw [ExactScalar.mul_comm, mul_larger, ExactScalar.mul_comm c.value a.value,
      ExactScalar.mul_comm c.value b.value])
  zero_mul a := MaxProduct.ext_value (ExactScalar.zero_mul _)
  mul_zero a := MaxProduct.ext_value
    ((ExactScalar.mul_comm _ _).trans (ExactScalar.zero_mul _))
  isZero_iff a := by
    change (a.value == (0 : K)) = true ↔ a = 0
    rw [ExactScalar.beq_iff]
    exact ⟨fun h => MaxProduct.ext_value h, fun h => congrArg MaxProduct.value h⟩
  le_total a b := TotallyRanked.le_total a.value b.value
  le_trans := TotallyRanked.le_trans (W := K)
  lt_eq_not_le a b := TotallyRanked.lt_eq_not_le a.value b.value
  selective := rfl
  le_antisymm hab hba := MaxProduct.ext_value (ExactOrder.le_antisymm hab hba)
  add_eq a b := by
    apply MaxProduct.ext_value
    change Ranked.larger a.value b.value = _
    rw [larger_eq]
    exact (apply_ite MaxProduct.value _ _ _).symm
  zero_le a := ExactOrder.zero_le a.value
  mul_le_mul_left c hab := ExactOrder.mul_le_mul_left c.value hab
  mul_le_mul_right {a b} c hab := by
    change Ranked.le (a.value * c.value) (b.value * c.value) = true
    rw [ExactScalar.mul_comm a.value, ExactScalar.mul_comm b.value]
    exact ExactOrder.mul_le_mul_left c.value hab
  eq_zero_of_mul_eq_zero h :=
    (ExactOrder.eq_zero_of_mul_eq_zero (congrArg MaxProduct.value h)).imp
      (fun h => MaxProduct.ext_value h) fun h => MaxProduct.ext_value h

instance : CommutativeWeights K (MaxProduct K) where
  mul_comm _ _ := MaxProduct.ext_value (ExactScalar.mul_comm _ _)

end MaxProduct

end WeightedParsing
