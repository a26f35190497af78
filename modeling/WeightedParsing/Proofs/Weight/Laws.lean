import Mathlib.Algebra.BigOperators.Ring.List
import WeightedParsing.Weight.Algebra

/-!
# Laws of weight algebras

The passes ask for no law of their weights.  What their results mean does: the
weights have to form a semiring whose zero the zero test recognises.  The outside
pass reorders factors and needs a commutative product.  Sums are taken over lists
with the operations of the weight algebra itself; the semiring instance below
only hands the library's lemmas on sums and products to the proofs.
-/

namespace WeightedParsing

/-- The weights form a semiring, and the zero test recognises its zero. -/
class LawfulWeights (K : outParam Type) (S : Type) [WeightAlgebra K S] :
    Prop where
  add_assoc : ∀ a b c : S, a + b + c = a + (b + c)
  add_comm : ∀ a b : S, a + b = b + a
  zero_add : ∀ a : S, 0 + a = a
  mul_assoc : ∀ a b c : S, a * b * c = a * (b * c)
  one_mul : ∀ a : S, 1 * a = a
  mul_one : ∀ a : S, a * 1 = a
  left_distrib : ∀ a b c : S, a * (b + c) = a * b + a * c
  right_distrib : ∀ a b c : S, (a + b) * c = a * c + b * c
  zero_mul : ∀ a : S, 0 * a = 0
  mul_zero : ∀ a : S, a * 0 = 0
  isZero_iff : ∀ a : S, WeightAlgebra.isZero a = true ↔ a = 0

/-- A product weighs nothing if its first factor does. -/
class AnnihilatingZero (K : outParam Type) (S : Type) [WeightAlgebra K S] :
    Prop where
  isZero_mul : ∀ a b : S, WeightAlgebra.isZero a = true →
    WeightAlgebra.isZero (a * b) = true

class CommutativeWeights (K : outParam Type) (S : Type) [WeightAlgebra K S] :
    Prop extends LawfulWeights K S where
  mul_comm : ∀ a b : S, a * b = b * a

/-- A product is zero only if one of its factors is. -/
class IntegralWeights (K : outParam Type) (S : Type) [WeightAlgebra K S] :
    Prop extends LawfulWeights K S where
  eq_zero_of_mul_eq_zero : ∀ {a b : S}, a * b = 0 → a = 0 ∨ b = 0

/-- Division undoes multiplication, and the zero weight is read as the zero scalar. -/
class InvertibleWeights (K : outParam Type) (S : Type) [Scalar K] [WeightAlgebra K S] :
    Prop extends CommutativeWeights K S where
  divide_mul_cancel : ∀ a b : S, b ≠ 0 → WeightAlgebra.divide a b * b = a
  toWeight_zero : WeightAlgebra.toWeight (0 : S) = 0
  scalar_zero_add : ∀ k : K, 0 + k = k

variable {K S : Type} [WeightAlgebra K S]

@[reducible] def LawfulWeights.semiring [LawfulWeights K S] : Semiring S :=
  { (inferInstance : Add S), (inferInstance : Mul S), (inferInstance : Zero S),
    (inferInstance : One S) with
    add_assoc := LawfulWeights.add_assoc
    add_comm := LawfulWeights.add_comm
    zero_add := LawfulWeights.zero_add
    add_zero := fun a => (LawfulWeights.add_comm a 0).trans (LawfulWeights.zero_add a)
    mul_assoc := LawfulWeights.mul_assoc
    one_mul := LawfulWeights.one_mul
    mul_one := LawfulWeights.mul_one
    left_distrib := LawfulWeights.left_distrib
    right_distrib := LawfulWeights.right_distrib
    zero_mul := LawfulWeights.zero_mul
    mul_zero := LawfulWeights.mul_zero
    nsmul := nsmulRec }

attribute [local instance] LawfulWeights.semiring

@[simp] theorem isZero_eq_true_iff [LawfulWeights K S] {a : S} :
    WeightAlgebra.isZero a = true ↔ a = 0 :=
  LawfulWeights.isZero_iff a

instance [LawfulWeights K S] : AnnihilatingZero K S where
  isZero_mul a b ha := by
    rw [isZero_eq_true_iff] at ha ⊢
    rw [ha, zero_mul]

theorem mul_ne_zero_of [IntegralWeights K S] {a b : S} (ha : a ≠ 0) (hb : b ≠ 0) :
    a * b ≠ 0 := by
  intro h
  exact (IntegralWeights.eq_zero_of_mul_eq_zero h).elim ha hb

/-! ## Sums over lists -/

section Sums

variable [LawfulWeights K S] {α β : Type}

theorem sum_flatMap (entries : List α) (f : α → List β) (weight : β → S) :
    ((entries.flatMap f).map weight).sum =
      (entries.map fun a => ((f a).map weight).sum).sum := by
  induction entries with
  | nil => rfl
  | cons a rest ih =>
      rw [List.flatMap_cons, List.map_append, List.sum_append, ih, List.map_cons,
        List.sum_cons]

theorem sum_filter {M : Type} [AddMonoid M] (entries : List α) (p : α → Bool)
    (weight : α → M) :
    ((entries.filter p).map weight).sum =
      (entries.map fun a => if p a then weight a else 0).sum := by
  induction entries with
  | nil => rfl
  | cons a rest ih =>
      rw [List.map_cons, List.sum_cons, ← ih]
      by_cases hp : p a
      · simp [hp]
      · simp [hp]

/-- Entries that a partial function leaves out weigh nothing, so that they may
as well be summed over. -/
theorem sum_filterMap (entries : List α) (f : α → Option β) (weight : β → S) :
    ((entries.filterMap f).map weight).sum =
      (entries.map fun a => ((f a).map weight).getD 0).sum := by
  induction entries with
  | nil => rfl
  | cons a rest ih =>
      rw [List.map_cons, List.sum_cons, ← ih]
      cases hf : f a
      · simp [hf]
      · simp [hf]

/-- What is kept of the entries whose weight is not zero. -/
theorem mem_filterMap_of_weight {entries : List α} {weight : α → S} {f : α → β} {b : β} :
    (b ∈ entries.filterMap fun a =>
        if WeightAlgebra.isZero (weight a) then none else some (f a)) ↔
      ∃ a ∈ entries, weight a ≠ 0 ∧ b = f a := by
  rw [List.mem_filterMap]
  apply exists_congr
  intro a
  rw [and_congr_right_iff]
  intro _
  by_cases hzero : weight a = 0
  · simp [hzero]
  · rw [if_neg (by simpa using hzero), Option.some.injEq]
    exact ⟨fun h => ⟨hzero, h.symm⟩, fun h => h.2.symm⟩

theorem sum_map_eq_zero {M : Type} [AddMonoid M] {entries : List α} {f : α → M}
    (h : ∀ a ∈ entries, f a = 0) : (entries.map f).sum = 0 := by
  rw [List.map_congr_left h]
  simp

theorem foldl_add_eq_sum (entries : List α) (f : α → S) (start : S) :
    entries.foldl (fun sum a => sum + f a) start = start + (entries.map f).sum := by
  induction entries generalizing start with
  | nil => simp
  | cons a rest ih =>
      rw [List.foldl_cons, ih, List.map_cons, List.sum_cons, add_assoc]

theorem sum_ite_eq_sum_replicate [DecidableEq α] (entries : List α) (a : α)
    (weight : S) :
    (entries.map fun b => if b = a then weight else 0).sum =
      (List.replicate (entries.count a) weight).sum := by
  induction entries with
  | nil => rfl
  | cons b rest ih =>
      rw [List.map_cons, List.sum_cons, ih]
      by_cases hb : b = a
      · subst hb
        rw [if_pos rfl, List.count_cons_self, List.replicate_succ, List.sum_cons]
      · rw [if_neg hb, zero_add, List.count_cons_of_ne hb]

/-- Of entries that exclude each other, at most one contributes. -/
theorem sum_ite_of_exclusive (entries : List α) (p : α → Prop) [DecidablePred p]
    (hexclusive : entries.Pairwise fun a b => ¬(p a ∧ p b)) (weight : S) :
    (entries.map fun a => if p a then weight else 0).sum =
      if entries.any fun a => p a then weight else 0 := by
  induction entries with
  | nil => simp
  | cons a rest ih =>
      rw [List.pairwise_cons] at hexclusive
      rw [List.map_cons, List.sum_cons, ih hexclusive.2]
      by_cases hp : p a
      · have hrest : (rest.any fun b => p b) = false := by
          rw [List.any_eq_false]
          intro b hb hpb
          exact hexclusive.1 b hb ⟨hp, of_decide_eq_true hpb⟩
        simp [hp, hrest]
      · simp [hp]

theorem sum_mul_sum (entries : List α) (others : List β) (f : α → S) (g : β → S)
    (a : S) :
    a * (entries.map f).sum * (others.map g).sum =
      (entries.map fun x => (others.map fun y => a * f x * g y).sum).sum := by
  have hleft : a * (entries.map f).sum = (entries.map fun x => a * f x).sum :=
    (List.sum_map_mul_left entries f a).symm
  rw [hleft, ← List.sum_map_mul_right]
  simp only [List.sum_map_mul_left]

end Sums

/-- Sums whose terms agree after a multiplication agree after it as well. -/
theorem mul_sum_ite_congr [CommutativeWeights K S] {α : Type} {entries : List α}
    {p : α → Prop} [DecidablePred p] {f f' g : α → S} {m : S}
    (h : ∀ a ∈ entries, p a → m * g a * f a = m * g a * f' a) :
    m * (entries.map fun a => if p a then f a * g a else 0).sum =
      m * (entries.map fun a => if p a then f' a * g a else 0).sum := by
  rw [← List.sum_map_mul_left, ← List.sum_map_mul_left]
  congr 1
  apply List.map_congr_left
  intro a ha
  by_cases hp : p a
  · have heq := h a ha hp
    rw [mul_assoc, mul_assoc, CommutativeWeights.mul_comm (g a),
      CommutativeWeights.mul_comm (g a)] at heq
    rw [if_pos hp, if_pos hp]
    exact heq
  · rw [if_neg hp, if_neg hp]

/-! ## Division -/

section Division

variable [Scalar K] [InvertibleWeights K S]

theorem divide_eq_mul (a : S) {b : S} (hb : b ≠ 0) :
    WeightAlgebra.divide a b = a * WeightAlgebra.divide 1 b := by
  have hinverse : b * WeightAlgebra.divide 1 b = 1 := by
    rw [CommutativeWeights.mul_comm]
    exact InvertibleWeights.divide_mul_cancel 1 b hb
  calc WeightAlgebra.divide a b
      = WeightAlgebra.divide a b * (b * WeightAlgebra.divide 1 b) := by
        rw [hinverse, mul_one]
    _ = a * WeightAlgebra.divide 1 b := by
        rw [← mul_assoc, InvertibleWeights.divide_mul_cancel a b hb]

theorem divide_sum {α : Type} (entries : List α) (f : α → S) {b : S} (hb : b ≠ 0) :
    WeightAlgebra.divide (entries.map f).sum b =
      (entries.map fun a => WeightAlgebra.divide (f a) b).sum := by
  rw [divide_eq_mul _ hb, ← List.sum_map_mul_right]
  congr 1
  apply List.map_congr_left
  intro a _
  rw [← divide_eq_mul _ hb]

end Division

end WeightedParsing
