import WeightedParsing.Proofs.Chart.Expectation

/-!
# Linear forms of the tables

A quantity that adds up over the rules of a derivation is summed over all complete
derivations by a linear form of the table of expectations.  Marginals sum it up by spans:
no derivation has two constituents over one span, and each constituent is a use of the
rule at its top.
-/

namespace WeightedParsing

variable {K S : Type} [WeightAlgebra K S]

attribute [local instance] LawfulWeights.semiring

/-- The complete derivations with a constituent of any symbol over a span. -/
def derivationsThrough (policy : Policy) (input : List Symbol) (first last : Nat) :
    List Derivation :=
  (completeDerivations policy input).filter fun d =>
    (d.constituents 0 (input.length - 1)).any fun part =>
      part.first = first ∧ part.last = last

theorem derivationsThrough_whole (policy : Policy) (input : List Symbol) :
    derivationsThrough policy input 0 (input.length - 1) =
      completeDerivations policy input := by
  rw [derivationsThrough, List.filter_eq_self]
  intro d _
  rw [List.any_eq_true]
  exact ⟨_, d.self_mem_constituents _ _, by simp⟩

section Run

variable [Scalar K] [CommutativeWeights K S] {model : Model K} {pass : InsidePass S}

/-- A linear form of the expectations sums up what the rules of a derivation add up to. -/
theorem OutsidePass.sum_expectations_run (hpass : pass.Complete model)
    (hpolicy : model.policy.Covering) (hfree : NoCancellation S model pass.input)
    (prior : RootPrior K) (f : Rule → S) :
    ((run model prior pass).expectations.entries.map fun e => f e.1 * e.2).sum =
      ((completeDerivations model.policy pass.input).map fun d =>
        (d.rules.map f).sum * (prior.weight d.root * d.weight model)).sum := by
  let uses := (completeDerivations model.policy pass.input).flatMap fun d =>
    d.rules.map fun rule => (rule, (prior.weight d.root * d.weight model : S))
  have hweights : ∀ rule, (run model prior pass).expectations.weightAt rule =
      (uses.map fun use => if use.1 = rule then use.2 else 0).sum := by
    intro rule
    rw [weightAt_expectations_run hpass hpolicy hfree, occurrences, sum_flatMap, sum_flatMap]
    congr 2
    funext d
    rw [List.map_replicate, List.map_map, ← sum_ite_eq_sum_replicate]
    rfl
  rw [OrderedTable.sum_entries_eq_of_weightAt f hweights, sum_flatMap]
  simp only [List.map_map, Function.comp_def, List.sum_map_mul_right]

theorem OutsidePass.sum_marginals_run (hpass : pass.Complete model)
    (hpolicy : model.policy.Covering) (hfree : NoCancellation S model pass.input)
    (prior : RootPrior K) (x : Symbol) :
    ((spansWidening pass.input.length).map fun span =>
        ((run model prior pass).marginal.get span.1 span.2).get x).sum =
      ((completeDerivations model.policy pass.input).map fun d =>
        (d.rules.map fun rule => if rule.parent = x then 1 else 0).sum *
          (prior.weight d.root * d.weight model)).sum := by
  have hinput : pass.input ≠ [] := List.length_pos_iff.mp hpass.nonempty
  have hconstituents := sum_constituents model hpolicy prior hinput (S := S)
    fun part => part.derivation.root = x
  calc
    _ = ((spansWidening pass.input.length).map fun span =>
          ((derivationsOver model.policy pass.input span.1 span.2).map fun d =>
            if d.root = x then
              contextSum model pass.input prior d.root span.1 span.2 * d.weight model
            else (0 : S)).sum).sum := by
      congr 1
      apply List.map_congr_left
      intro span hspan
      rw [mem_spansWidening] at hspan
      rw [get_marginal_run hpass hpolicy hfree prior hspan.1 hspan.2,
        sum_derivationsWith model hpolicy prior hinput hspan.1 hspan.2, derivationSum,
        derivations, sum_filter, ← List.sum_map_mul_left]
      congr 2
      funext d
      by_cases hroot : d.root = x
      · simp [hroot]
      · simp [hroot]
    _ = _ := hconstituents.symm
    _ = _ := by
      congr 2
      funext d
      rw [← d.map_rule_constituents 0 (pass.input.length - 1), List.map_map,
        ← List.sum_map_mul_right]
      congr 2
      funext part
      rw [Function.comp_apply, ← Derivation.root_eq_parent_rule, ite_mul, one_mul, zero_mul]

/-- All marginals of a span together weigh what the derivations with a constituent over it
weigh. -/
theorem OutsidePass.total_marginal_run_eq (hpass : pass.Complete model)
    (hpolicy : model.policy.Covering) (hfree : NoCancellation S model pass.input)
    (prior : RootPrior K) {first last : Nat} (hspan : first ≤ last)
    (hlast : last < pass.input.length) :
    ((run model prior pass).marginal.get first last).total =
      ((derivationsThrough model.policy pass.input first last).map fun d =>
        prior.weight d.root * d.weight model).sum := by
  let isOver : Constituent → Prop := fun part => part.first = first ∧ part.last = last
  let parts := (completeDerivations model.policy pass.input).flatMap fun d =>
    ((d.constituents 0 (pass.input.length - 1)).filter fun part => isOver part).map fun part =>
      (part.derivation.root, (prior.weight d.root * d.weight model : S))
  have hweights : ∀ x, ((run model prior pass).marginal.get first last).table.weightAt x =
      (parts.map fun part => if part.1 = x then part.2 else 0).sum := by
    intro x
    have hmarginal := get_marginal_run hpass hpolicy hfree prior hspan hlast x
    refine hmarginal.trans ?_
    rw [sum_flatMap, derivationsWith, sum_filter]
    congr 1
    apply List.map_congr_left
    intro d hd
    rw [List.map_map, sum_filter, ← sum_ite_of_exclusive]
    · congr 2
      funext part
      simp only [isOver, Function.comp_apply, decide_eq_true_eq, ← ite_and, and_assoc]
    · apply Derivation.exclusive_constituents (mem_completeDerivations.mp hd)
        (Nat.zero_le _)
      exact fun part hpart => ⟨hpart.1, hpart.2.1⟩
  have htotal := OrderedTable.sum_entries_eq_of_weightAt (fun _ => (1 : S)) hweights
  simp only [one_mul] at htotal
  rw [SymbolWeights.total_eq_sum]
  refine htotal.trans ?_
  rw [sum_flatMap, derivationsThrough, sum_filter]
  congr 1
  apply List.map_congr_left
  intro d hd
  rw [List.map_map, sum_filter, ← sum_ite_of_exclusive]
  · congr 2
    funext part
    simp [isOver]
  · apply Derivation.exclusive_constituents (mem_completeDerivations.mp hd) (Nat.zero_le _)
    exact fun part hpart => hpart

end Run

end WeightedParsing
