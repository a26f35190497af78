import Mathlib.Analysis.SpecialFunctions.Log.Basic
import WeightedParsing.Proofs.Chart.Posterior

/-!
# Averages over the posterior

What adds up over the rules of a derivation is averaged over all complete derivations,
each as likely as its share in the partition function.  If the rules are given new weights,
then the logarithms of the weights of the derivations gain on average no more than the
logarithm of the partition function does.
-/

namespace WeightedParsing

theorem Derivation.mass_ne_zero_iff {model : Model ℝ} {prior : RootPrior ℝ}
    {d : Derivation} :
    d.mass model prior ≠ 0 ↔ (prior.weight d.root : SumProduct ℝ).value ≠ 0 ∧
      ∀ rule ∈ d.rules, model.ruleWeight rule ≠ 0 := by
  rw [mass_eq, mul_ne_zero_iff]
  simp

theorem Derivation.log_mass {model : Model ℝ} {prior : RootPrior ℝ} {d : Derivation}
    (h : d.mass model prior ≠ 0) :
    Real.log (d.mass model prior) = Real.log (prior.weight d.root : SumProduct ℝ).value +
      (d.rules.map fun rule => Real.log (model.ruleWeight rule)).sum := by
  obtain ⟨hroot, hrules⟩ := mass_ne_zero_iff.mp h
  have hweights : ∀ weight ∈ d.rules.map model.ruleWeight, weight ≠ 0 :=
    List.forall_mem_map.mpr hrules
  rw [mass_eq, Real.log_mul hroot (List.prod_ne_zero fun h => hweights 0 h rfl),
    Real.log_list_prod hweights, List.map_map]
  rfl

/-- The average over all complete derivations of what `f` adds up to over their rules. -/
noncomputable def Model.average (model : Model ℝ) (prior : RootPrior ℝ) (f : Rule → ℝ)
    (input : List Symbol) : ℝ :=
  ((completeDerivations model.policy input).map fun d =>
    (d.rules.map f).sum * d.mass model prior).sum / totalMass model prior input

section Averages

variable {model : Model ℝ} (hmodel : model.Nonneg) {prior : RootPrior ℝ}
  (hprior : prior.Nonneg)

include hmodel hprior

theorem Derivation.mass_pos {d : Derivation} (hd : d.mass model prior ≠ 0) :
    0 < d.mass model prior :=
  lt_of_le_of_ne (d.mass_nonneg hmodel hprior) (Ne.symm hd)

theorem totalMass_nonneg (input : List Symbol) : 0 ≤ totalMass model prior input :=
  sum_map_nonneg fun d _ => d.mass_nonneg hmodel hprior

theorem mass_le_totalMass {input : List Symbol} {d : Derivation}
    (hd : d ∈ completeDerivations model.policy input) :
    d.mass model prior ≤ totalMass model prior input :=
  le_sum_map (fun d _ => d.mass_nonneg hmodel hprior) hd

theorem Model.average_nonneg {f : Rule → ℝ} (hf : ∀ rule, 0 ≤ f rule)
    (input : List Symbol) : 0 ≤ model.average prior f input := by
  apply div_nonneg _ (totalMass_nonneg hmodel hprior input)
  apply sum_map_nonneg
  intro d _
  exact mul_nonneg (sum_map_nonneg fun rule _ => hf rule) (d.mass_nonneg hmodel hprior)

theorem Model.average_pos {f : Rule → ℝ} (hf : ∀ rule, 0 ≤ f rule) {input : List Symbol}
    {d : Derivation} (hd : d ∈ completeDerivations model.policy input)
    (hmass : d.mass model prior ≠ 0) {rule : Rule} (hrule : rule ∈ d.rules)
    (hpos : 0 < f rule) : 0 < model.average prior f input := by
  have hd_pos := d.mass_pos hmodel hprior hmass
  have huse : f rule ≤ (d.rules.map f).sum := le_sum_map (fun r _ => hf r) hrule
  have hterms : ∀ d' ∈ completeDerivations model.policy input,
      0 ≤ (d'.rules.map f).sum * d'.mass model prior := fun d' _ =>
    mul_nonneg (sum_map_nonneg fun r _ => hf r) (d'.mass_nonneg hmodel hprior)
  apply div_pos _ (hd_pos.trans_le (mass_le_totalMass hmodel hprior hd))
  exact (mul_pos (hpos.trans_le huse) hd_pos).trans_le (le_sum_map hterms hd)

end Averages

/-- A rule of no weight is not expected to be used. -/
theorem Model.average_eq_zero {model : Model ℝ} {prior : RootPrior ℝ} {f : Rule → ℝ}
    (hf : ∀ rule, f rule ≠ 0 → model.ruleWeight rule = 0) (input : List Symbol) :
    model.average prior f input = 0 := by
  have hterm : ∀ d ∈ completeDerivations model.policy input,
      (d.rules.map f).sum * d.mass model prior = 0 := by
    intro d _
    by_cases hmass : d.mass model prior = 0
    · rw [hmass, mul_zero]
    · have hrules := (Derivation.mass_ne_zero_iff.mp hmass).2
      have hvalues : ∀ rule ∈ d.rules, f rule = 0 := by
        intro rule hrule
        by_contra hne
        exact hrules rule hrule (hf rule hne)
      rw [sum_map_eq_zero hvalues, zero_mul]
  rw [average, sum_map_eq_zero hterm, zero_div]

/-! ## What new probabilities gain -/

/-- What the logarithm of the probability of a rule gains from `p` to `q`. -/
noncomputable def logGain (p q : Rule → ℝ) (rule : Rule) : ℝ :=
  Real.log (q rule) - Real.log (p rule)

section Gain

variable {policy : Policy} {p q : Rule → ℝ} {prior : RootPrior ℝ}

theorem Derivation.log_mass_add_gain {d : Derivation} (hp : d.mass ⟨policy, p⟩ prior ≠ 0)
    (hq : d.mass ⟨policy, q⟩ prior ≠ 0) :
    Real.log (d.mass ⟨policy, p⟩ prior) + (d.rules.map (logGain p q)).sum =
      Real.log (d.mass ⟨policy, q⟩ prior) := by
  rw [log_mass hp, log_mass hq, add_assoc, ← List.sum_map_add]
  simp only [logGain, add_sub_cancel]

variable (hp : (⟨policy, p⟩ : Model ℝ).Nonneg) (hq : (⟨policy, q⟩ : Model ℝ).Nonneg)
  (hprior : prior.Nonneg)

include hp hq hprior

theorem Derivation.gain_mul_mass_le {d : Derivation} {Z Z' : ℝ} (hZ : 0 < Z) (hZ' : 0 < Z')
    (hsupport : d.mass ⟨policy, p⟩ prior ≠ 0 → d.mass ⟨policy, q⟩ prior ≠ 0) :
    (d.rules.map (logGain p q)).sum * d.mass ⟨policy, p⟩ prior / Z +
        (1 - (Real.log Z' - Real.log Z)) * (d.mass ⟨policy, p⟩ prior / Z) ≤
      d.mass ⟨policy, q⟩ prior / Z' := by
  have hbefore := d.mass_nonneg hp hprior
  have hafter := d.mass_nonneg hq hprior
  by_cases hzero : d.mass ⟨policy, p⟩ prior = 0
  · rw [hzero, zero_div, mul_zero, mul_zero, zero_div, add_zero]
    exact div_nonneg hafter hZ'.le
  · have hbound := mul_log_sub_log_add_le (div_nonneg hbefore hZ.le)
      (div_nonneg hafter hZ'.le) fun _ => div_ne_zero (hsupport hzero) hZ'.ne'
    rw [Real.log_div hzero hZ.ne', Real.log_div (hsupport hzero) hZ'.ne',
      ← log_mass_add_gain hzero (hsupport hzero)] at hbound
    refine le_trans (le_of_eq ?_) hbound
    ring

/-- If no derivation loses its weight, then the logarithm of the partition function gains
no less than the derivations do on average over the old posterior. -/
theorem Model.average_gain_le {input : List Symbol}
    (hsupport : ∀ d ∈ completeDerivations policy input,
      d.mass ⟨policy, p⟩ prior ≠ 0 → d.mass ⟨policy, q⟩ prior ≠ 0)
    (hZ : 0 < totalMass ⟨policy, p⟩ prior input)
    (hZ' : 0 < totalMass ⟨policy, q⟩ prior input) :
    Model.average ⟨policy, p⟩ prior (logGain p q) input +
        Real.log (totalMass ⟨policy, p⟩ prior input) ≤
      Real.log (totalMass ⟨policy, q⟩ prior input) := by
  have hsum := List.sum_le_sum fun d hd =>
    Derivation.gain_mul_mass_le hp hq hprior hZ hZ' (hsupport d hd)
  have hshare : ∀ r : Rule → ℝ, 0 < totalMass ⟨policy, r⟩ prior input →
      ((completeDerivations policy input).map fun d =>
        d.mass ⟨policy, r⟩ prior / totalMass ⟨policy, r⟩ prior input).sum = 1 := by
    intro r hr
    simp only [div_eq_mul_inv, List.sum_map_mul_right]
    exact mul_inv_cancel₀ hr.ne'
  rw [List.sum_map_add, List.sum_map_mul_left, hshare p hZ, hshare q hZ', mul_one] at hsum
  have haverage : ((completeDerivations policy input).map fun d =>
      (d.rules.map (logGain p q)).sum * d.mass ⟨policy, p⟩ prior /
        totalMass ⟨policy, p⟩ prior input).sum =
      Model.average ⟨policy, p⟩ prior (logGain p q) input := by
    simp only [div_eq_mul_inv, List.sum_map_mul_right]
    rfl
  rw [haverage] at hsum
  linarith

end Gain

end WeightedParsing
