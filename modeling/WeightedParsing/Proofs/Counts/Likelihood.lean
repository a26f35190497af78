import Mathlib.Analysis.SpecialFunctions.Log.Basic
import WeightedParsing.Proofs.Counts.Ledger

/-!
# The likeliest probabilities of some uses

Counting uses and dividing by the counts of the parents gives the uses the greatest
likelihood that any conditional probabilities can give them.  The logarithm of a ratio is
at most the ratio less one, and what the ratios amount to is bounded because the
probabilities of the rules of a parent add up to no more than one.
-/

namespace WeightedParsing

namespace ConditionalTable.HasCounted

variable {table : ConditionalTable ℝ} {uses : List (Rule × ℝ)}

/-- What one rule gains in likelihood is at least its count less the share that `p` gives it
of the count of its parent. -/
theorem ruleCount_sub_le (h : table.HasCounted uses) {p : Rule → ℝ} (hp : IsConditional p)
    {rule : Rule} (hrule : table.ruleCount rule ≠ 0 → p rule ≠ 0) :
    table.ruleCount rule - table.parentCount rule.parent * p rule ≤
      (Real.log (table.probability rule) - Real.log (p rule)) * table.ruleCount rule := by
  have hcount := h.ruleCount_nonneg rule
  have hparent := h.ruleCount_le_parentCount rule
  have hclaim : 0 ≤ table.parentCount rule.parent * p rule :=
    mul_nonneg (h.parentCount_nonneg _) (hp.nonneg rule)
  by_cases hzero : table.ruleCount rule = 0
  · rw [hzero, mul_zero, zero_sub]
    exact neg_nonpos.mpr hclaim
  · have htotal : table.parentCount rule.parent ≠ 0 :=
      ((lt_of_le_of_ne hcount (Ne.symm hzero)).trans_le hparent).ne'
    have hbound := mul_log_sub_log_add_le hcount hclaim fun _ =>
      mul_ne_zero htotal (hrule hzero)
    rw [h.probability_eq, Real.log_div hzero htotal]
    rw [Real.log_mul htotal (hrule hzero)] at hbound
    linarith

/-- The shares of all rules in the counts of their parents are no more than was counted. -/
theorem sum_parentCount_mul_le (h : table.HasCounted uses) {p : Rule → ℝ}
    (hp : IsConditional p) {rules : Finset Rule} (hrules : ∀ use ∈ uses, use.1 ∈ rules) :
    ∑ rule ∈ rules, table.parentCount rule.parent * p rule ≤
      ∑ rule ∈ rules, table.ruleCount rule := by
  calc
    ∑ rule ∈ rules, table.parentCount rule.parent * p rule =
        ∑ rule ∈ rules, ∑ r ∈ rules,
          if r.parent = rule.parent then table.ruleCount r * p rule else 0 := by
      apply Finset.sum_congr rfl
      intro rule _
      rw [h.tallies.parentCount_eq_sum hrules, Finset.sum_mul, Finset.sum_filter]
    _ = ∑ r ∈ rules, table.ruleCount r *
        ∑ rule ∈ rules with r.parent = rule.parent, p rule := by
      rw [Finset.sum_comm]
      apply Finset.sum_congr rfl
      intro r _
      rw [Finset.mul_sum, Finset.sum_filter]
    _ ≤ ∑ r ∈ rules, table.ruleCount r := by
      apply Finset.sum_le_sum
      intro r _
      apply mul_le_of_le_one_right (h.ruleCount_nonneg r)
      apply hp.sum_le_one r.parent
      exact fun rule hrule => (Finset.mem_filter.mp hrule).2.symm

/-- No conditional probabilities make the uses likelier than those of a table that has
counted them. -/
theorem log_likelihood_gain_nonneg (h : table.HasCounted uses) {p : Rule → ℝ}
    (hp : IsConditional p) (hsupport : ∀ rule, table.ruleCount rule ≠ 0 → p rule ≠ 0) :
    0 ≤ (uses.map fun use =>
      (Real.log (table.probability use.1) - Real.log (p use.1)) * use.2).sum := by
  have hused : ∀ use ∈ uses, use.1 ∈ (uses.map Prod.fst).toFinset := by
    intro use huse
    exact List.mem_toFinset.mpr (List.mem_map_of_mem huse)
  rw [sum_uses_eq_sum_keys (fun rule => Real.log (table.probability rule) - Real.log (p rule))
    hused]
  simp only [← h.ruleCount_eq]
  refine le_trans ?_ (Finset.sum_le_sum fun rule _ => h.ruleCount_sub_le hp (hsupport rule))
  rw [Finset.sum_sub_distrib]
  exact sub_nonneg.mpr (h.sum_parentCount_mul_le hp hused)

end ConditionalTable.HasCounted

end WeightedParsing
