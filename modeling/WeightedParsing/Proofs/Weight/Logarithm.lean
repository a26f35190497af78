import Mathlib.Analysis.SpecialFunctions.Log.Basic
import WeightedParsing.Proofs.Weight.Exact
import WeightedParsing.Proofs.Weight.Homomorphism

/-!
# Logarithms of real weights

With real numbers in place of floats, the logarithms of weights form the same two
algebras.  A weight of zero has the logarithm `⊥`, and the logarithm of a sum is found
from those of its terms.  The exponential function leads back to the weights.
-/

namespace WeightedParsing

noncomputable instance : Scalar ℝ := Scalar.ofOrdered Real.log

instance : ExactScalar ℝ := exactScalar_ofOrdered _

noncomputable instance : Ranked (WithBot ℝ) where
  lt a b := decide (a < b)
  le a b := decide (a ≤ b)

/-! ## Comparisons of a linear order -/

theorem larger_eq_max {L : Type} [LinearOrder L] [Ranked L]
    (hlt : ∀ a b : L, Ranked.lt a b = decide (a < b))
    (hle : ∀ a b : L, Ranked.le a b = decide (a ≤ b)) (a b : L) :
    Ranked.larger a b = max a b := by
  unfold Ranked.larger
  rw [hle, hlt, if_pos (decide_eq_true (le_refl a))]
  by_cases hab : a < b
  · rw [if_pos (decide_eq_true hab), max_eq_right hab.le]
  · rw [if_neg (by simpa using hab), max_eq_left (not_lt.mp hab)]

/-- Weights that compare like members of a linear order. -/
theorem TotallyRanked.of_key {W L : Type} [Ranked W] [LinearOrder L] (key : W → L)
    (hlt : ∀ a b, Ranked.lt a b = decide (key a < key b))
    (hle : ∀ a b, Ranked.le a b = decide (key a ≤ key b)) : TotallyRanked W where
  le_total a b := by simpa only [hle, decide_eq_true_eq] using
    LinearOrder.le_total (key a) (key b)
  le_trans := by
    intro a b c hab hbc
    simp only [hle, decide_eq_true_eq] at *
    exact hab.trans hbc
  lt_eq_not_le a b := by rw [hlt, hle, ← decide_not, decide_eq_decide, not_le]

/-! ## Logarithms -/

namespace RealLog

/-- The number with a given logarithm. -/
noncomputable def exp : WithBot ℝ → ℝ := WithBot.recBotCoe 0 Real.exp

/-- The logarithm of a number of at least zero. -/
noncomputable def ln (w : ℝ) : WithBot ℝ := if w ≤ 0 then ⊥ else (Real.log w : ℝ)

/-- The logarithm of the sum of the two numbers with logarithms `a` and `b`. -/
noncomputable def addExp (a b : WithBot ℝ) : WithBot ℝ :=
  let high := max a b
  let low := min a b
  if low = ⊥ then high
  else high + (Real.log (1 + Real.exp (low.unbotD 0 - high.unbotD 0)) : ℝ)

@[simp] theorem exp_bot : exp ⊥ = 0 := rfl

@[simp] theorem exp_coe (x : ℝ) : exp x = Real.exp x := rfl

theorem exp_strictMono : StrictMono exp := by
  intro a b hab
  cases b with
  | bot => exact absurd hab not_lt_bot
  | coe y =>
      cases a with
      | bot => exact Real.exp_pos y
      | coe x => exact Real.exp_lt_exp.mpr (WithBot.coe_lt_coe.mp hab)

theorem eq_bot_of_exp_eq_zero {a : WithBot ℝ} (ha : exp a = 0) : a = ⊥ :=
  exp_strictMono.injective ha

theorem exp_ln {w : ℝ} (hw : 0 ≤ w) : exp (ln w) = w := by
  unfold ln
  split
  · rename_i hle
    exact le_antisymm hw hle
  · rename_i hpos
    exact Real.exp_log (not_le.mp hpos)

theorem exp_add (a b : WithBot ℝ) : exp (a + b) = exp a * exp b := by
  cases a with
  | bot => simp
  | coe x =>
      cases b with
      | bot => simp
      | coe y => exact Real.exp_add x y

theorem exp_max (a b : WithBot ℝ) : exp (max a b) = max (exp a) (exp b) :=
  exp_strictMono.monotone.map_max

theorem exp_addExp (a b : WithBot ℝ) : exp (addExp a b) = exp a + exp b := by
  have hsum : exp a + exp b = exp (max a b) + exp (min a b) := by
    rcases le_total a b with hab | hba
    · rw [max_eq_right hab, min_eq_left hab, add_comm]
    · rw [max_eq_left hba, min_eq_right hba]
  have hle : min a b ≤ max a b := min_le_max
  rw [hsum]
  unfold addExp
  generalize max a b = high at hle
  generalize min a b = low at hle
  cases low with
  | bot => simp
  | coe y =>
      cases high with
      | bot => exact absurd hle (WithBot.not_coe_le_bot y)
      | coe x =>
          have hpos : 0 < 1 + Real.exp (y - x) := by positivity
          calc exp ((x : WithBot ℝ) + (Real.log (1 + Real.exp (y - x)) : ℝ))
              = Real.exp x * (1 + Real.exp (y - x)) := by
                rw [exp_add, exp_coe, exp_coe, Real.exp_log hpos]
            _ = exp x + exp y := by
                rw [mul_add, mul_one, ← Real.exp_add, add_sub_cancel, exp_coe, exp_coe]

end RealLog

/-- Logarithms of real weights under addition and multiplication of the weights. -/
structure RealLogSum where
  log : WithBot ℝ

/-- Logarithms of real weights under maximum and multiplication of the weights. -/
structure RealLogMax where
  log : WithBot ℝ

noncomputable instance : WeightAlgebra ℝ RealLogSum where
  zero := ⟨⊥⟩
  one := ⟨0⟩
  add a b := ⟨RealLog.addExp a.log b.log⟩
  mul a b := ⟨a.log + b.log⟩
  beq a b := a.log == b.log
  lt a b := Ranked.lt a.log b.log
  le a b := Ranked.le a.log b.log
  selective := false
  logSpace := true
  ofWeight w := ⟨RealLog.ln w⟩
  toWeight a := RealLog.exp a.log
  logWeight a := a.log.unbotD 0
  divide a b := ⟨a.log.map (· - b.log.unbotD 0)⟩

noncomputable instance : WeightAlgebra ℝ RealLogMax where
  zero := ⟨⊥⟩
  one := ⟨0⟩
  add a b := ⟨Ranked.larger a.log b.log⟩
  mul a b := ⟨a.log + b.log⟩
  beq a b := a.log == b.log
  lt a b := Ranked.lt a.log b.log
  le a b := Ranked.le a.log b.log
  selective := true
  logSpace := true
  ofWeight w := ⟨RealLog.ln w⟩
  toWeight a := RealLog.exp a.log
  logWeight a := a.log.unbotD 0
  divide a b := ⟨a.log.map (· - b.log.unbotD 0)⟩

theorem RealLogSum.ext_log {a b : RealLogSum} (h : a.log = b.log) : a = b := by
  cases a
  cases b
  exact congrArg RealLogSum.mk h

theorem RealLogMax.ext_log {a b : RealLogMax} (h : a.log = b.log) : a = b := by
  cases a
  cases b
  exact congrArg RealLogMax.mk h

instance : ExactZero ℝ RealLogSum where
  isZero_iff a := by
    change (a.log == ⊥) = true ↔ a = 0
    rw [beq_iff_eq]
    exact ⟨fun h => RealLogSum.ext_log h, fun h => congrArg RealLogSum.log h⟩

instance : ExactZero ℝ RealLogMax where
  isZero_iff a := by
    change (a.log == ⊥) = true ↔ a = 0
    rw [beq_iff_eq]
    exact ⟨fun h => RealLogMax.ext_log h, fun h => congrArg RealLogMax.log h⟩

instance : ExactZero ℝ (MaxProduct ℝ) where
  isZero_iff a := by
    change (a.value == 0) = true ↔ a = 0
    rw [beq_iff_eq]
    constructor
    · intro hvalue
      cases a
      exact congrArg MaxProduct.mk hvalue
    · exact congrArg MaxProduct.value

/-! ## The exponential function -/

noncomputable def RealLogSum.exp (a : RealLogSum) : SumProduct ℝ := ⟨RealLog.exp a.log⟩

noncomputable def RealLogMax.exp (a : RealLogMax) : MaxProduct ℝ := ⟨RealLog.exp a.log⟩

theorem RealLogSum.weightHom_exp : WeightHom RealLogSum.exp where
  map_zero := rfl
  map_one := SumProduct.ext_value Real.exp_zero
  map_add a b := SumProduct.ext_value (RealLog.exp_addExp a.log b.log)
  map_mul a b := SumProduct.ext_value (RealLog.exp_add a.log b.log)
  map_ofWeight _ hw := SumProduct.ext_value (RealLog.exp_ln (of_decide_eq_true hw))
  eq_zero _ ha :=
    RealLogSum.ext_log (RealLog.eq_bot_of_exp_eq_zero (congrArg SumProduct.value ha))
  selective_eq := rfl

theorem RealLogMax.weightHom_exp : WeightHom RealLogMax.exp where
  map_zero := rfl
  map_one := congrArg MaxProduct.mk Real.exp_zero
  map_add a b := by
    apply congrArg MaxProduct.mk
    change RealLog.exp (Ranked.larger a.log b.log) =
      Ranked.larger (RealLog.exp a.log) (RealLog.exp b.log)
    rw [larger_eq_max (fun _ _ => rfl) (fun _ _ => rfl),
      larger_eq_max (fun _ _ => rfl) (fun _ _ => rfl), RealLog.exp_max]
  map_mul a b := congrArg MaxProduct.mk (RealLog.exp_add a.log b.log)
  map_ofWeight _ hw := congrArg MaxProduct.mk (RealLog.exp_ln (of_decide_eq_true hw))
  eq_zero _ ha :=
    RealLogMax.ext_log (RealLog.eq_bot_of_exp_eq_zero (congrArg MaxProduct.value ha))
  selective_eq := rfl

theorem RealLogSum.strictlyIncreasing_exp : Ranked.StrictlyIncreasing RealLogSum.exp where
  source := .of_key RealLogSum.log (fun _ _ => rfl) fun _ _ => rfl
  target := .of_key SumProduct.value (fun _ _ => rfl) fun _ _ => rfl
  le_antisymm hab hba :=
    RealLogSum.ext_log (le_antisymm (of_decide_eq_true hab) (of_decide_eq_true hba))
  lt_map _ _ hab := decide_eq_true (RealLog.exp_strictMono (of_decide_eq_true hab))

theorem RealLogMax.strictlyIncreasing_exp : Ranked.StrictlyIncreasing RealLogMax.exp where
  source := .of_key RealLogMax.log (fun _ _ => rfl) fun _ _ => rfl
  target := .of_key MaxProduct.value (fun _ _ => rfl) fun _ _ => rfl
  le_antisymm hab hba :=
    RealLogMax.ext_log (le_antisymm (of_decide_eq_true hab) (of_decide_eq_true hba))
  lt_map _ _ hab := decide_eq_true (RealLog.exp_strictMono (of_decide_eq_true hab))

/-! ## Reading products back -/

instance : ExactProducts ℝ RealLogSum where
  toWeight_mul a b := RealLog.exp_add a.log b.log
  isZero_mul_zero a :=
    (ExactZero.isZero_iff _).mpr (RealLogSum.ext_log (WithBot.add_bot a.log))
  zero_add a := by
    refine .inl (RealLogSum.ext_log (RealLog.exp_strictMono.injective ?_))
    change RealLog.exp (RealLog.addExp ⊥ a.log) = _
    rw [RealLog.exp_addExp, RealLog.exp_bot, zero_add]

instance : ExactProducts ℝ RealLogMax where
  toWeight_mul a b := RealLog.exp_add a.log b.log
  isZero_mul_zero a :=
    (ExactZero.isZero_iff _).mpr (RealLogMax.ext_log (WithBot.add_bot a.log))
  zero_add a := by
    refine .inl (RealLogMax.ext_log ?_)
    change Ranked.larger ⊥ a.log = _
    rw [larger_eq_max (fun _ _ => rfl) (fun _ _ => rfl), max_eq_right bot_le]

theorem RealLogMax.isRead {model : Model ℝ} (hmodel : model.Nonneg) :
    model.IsRead RealLogMax :=
  fun rule => RealLog.exp_ln (of_decide_eq_true (hmodel rule))

theorem RealLogSum.isRead {model : Model ℝ} (hmodel : model.Nonneg) :
    model.IsRead RealLogSum :=
  fun rule => RealLog.exp_ln (of_decide_eq_true (hmodel rule))

/-! ## Ratios -/

/-- The logarithm of a ratio is at most the ratio less one. -/
theorem mul_log_sub_log_add_le {a b : ℝ} (ha : 0 ≤ a) (hb : 0 ≤ b) (hab : a ≠ 0 → b ≠ 0) :
    a * (Real.log b - Real.log a) + a ≤ b := by
  by_cases hzero : a = 0
  · rw [hzero, zero_mul, zero_add]
    exact hb
  · have hpos : 0 < a := lt_of_le_of_ne ha (Ne.symm hzero)
    have hratio : 0 < b / a := div_pos (lt_of_le_of_ne hb (Ne.symm (hab hzero))) hpos
    calc
      a * (Real.log b - Real.log a) + a = a * Real.log (b / a) + a := by
        rw [Real.log_div (hab hzero) hzero]
      _ ≤ a * (b / a - 1) + a := by
        gcongr
        exact Real.log_le_sub_one_of_pos hratio
      _ = b := by
        field_simp
        ring

end WeightedParsing
