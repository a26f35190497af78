import WeightedParsing.Proofs.Weight.Logarithm
import WeightedParsing.Proofs.Weight.Monotone

/-!
# Weights that are summed

A weight may be stored in many ways.  What a summing algebra computes is settled by the
real numbers that its weights are read as: it adds, multiplies and divides them without
rounding, and nothing but zero is read as zero.
-/

namespace WeightedParsing

/-- The real number that a weight is read as, as a weight that is stored as it is. -/
def WeightAlgebra.read {S : Type} [WeightAlgebra ℝ S] (a : S) : SumProduct ℝ :=
  ⟨toWeight a⟩

/-- An algebra whose weights are added, multiplied and divided like the real numbers that
they are read as. -/
class SummingWeights (S : Type) [WeightAlgebra ℝ S] : Prop extends ExactZero ℝ S where
  weightHom_read : WeightHom (WeightAlgebra.read : S → SumProduct ℝ)
  toWeight_divide : ∀ a b : S, b ≠ 0 → WeightAlgebra.toWeight (WeightAlgebra.divide a b) =
    WeightAlgebra.toWeight a / WeightAlgebra.toWeight b

namespace SummingWeights

variable {S : Type} [WeightAlgebra ℝ S] [SummingWeights S]

theorem selective_eq_false : WeightAlgebra.selective S = false :=
  (weightHom_read (S := S)).selective_eq

theorem toWeight_eq_zero_iff {a : S} : WeightAlgebra.toWeight a = 0 ↔ a = 0 := by
  constructor
  · intro hzero
    exact weightHom_read.eq_zero a (congrArg SumProduct.mk hzero)
  · rintro rfl
    exact congrArg SumProduct.value (weightHom_read (S := S)).map_zero

end SummingWeights

instance : OrderedScalar ℝ := orderedScalar_ofOrdered _

instance : SummingWeights (SumProduct ℝ) where
  weightHom_read :=
    { map_zero := rfl
      map_one := rfl
      map_add := fun _ _ => rfl
      map_mul := fun _ _ => rfl
      map_ofWeight := fun _ _ => rfl
      eq_zero := fun _ h => h
      selective_eq := rfl }
  toWeight_divide _ _ _ := rfl

instance : SummingWeights RealLogSum where
  weightHom_read := RealLogSum.weightHom_exp
  toWeight_divide a b hb := by
    obtain ⟨x⟩ := a
    obtain ⟨y⟩ := b
    cases y with
    | bot => exact absurd rfl hb
    | coe y =>
        cases x with
        | bot => exact (zero_div _).symm
        | coe x => exact Real.exp_sub x y

/-! ## Sums of weights as sums of numbers -/

attribute [local instance] LawfulWeights.semiring

theorem SumProduct.value_sum {α : Type} (entries : List α) (f : α → SumProduct ℝ) :
    (entries.map f).sum.value = (entries.map fun a => (f a).value).sum := by
  induction entries with
  | nil => rfl
  | cons a rest ih =>
      rw [List.map_cons, List.sum_cons, List.map_cons, List.sum_cons, ← ih]
      rfl

section Numbers

variable {α : Type} {entries : List α} {f : α → ℝ}

theorem sum_map_nonneg (h : ∀ a ∈ entries, 0 ≤ f a) : 0 ≤ (entries.map f).sum :=
  List.sum_nonneg (List.forall_mem_map.mpr h)

theorem le_sum_map (h : ∀ a ∈ entries, 0 ≤ f a) {a : α} (ha : a ∈ entries) :
    f a ≤ (entries.map f).sum :=
  List.single_le_sum (List.forall_mem_map.mpr h) _ (List.mem_map_of_mem ha)

end Numbers

end WeightedParsing
