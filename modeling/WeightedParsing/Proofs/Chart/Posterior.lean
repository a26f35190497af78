import Mathlib.Analysis.SpecialFunctions.Log.Basic
import WeightedParsing.Proofs.Chart.Image
import WeightedParsing.Proofs.Chart.LinearForms
import WeightedParsing.Proofs.Corpus.Counts
import WeightedParsing.Proofs.Derivation.Parse
import WeightedParsing.Proofs.Weight.Summing

/-!
# The posterior distribution over derivations

Complete derivations weighed by rules of at least zero form a distribution, up to a
common factor.  Charts over a summing algebra are read as its partition function, the
probabilities of constituents and the expected uses of rules.  The three tables are kept
apart by the outside pass; that each derivation covers the input once, branches once less
often than it has leaves and has no two constituents over one span makes them agree.
-/

namespace WeightedParsing

/-- The number of words that a rule reads; none for a binary rule. -/
def Rule.wordCount : Rule → Nat
  | .binary _ => 0
  | .terminal rule => rule.words.length

/-! ## The rules of a derivation -/

theorem Derives.sum_wordCount {policy : Policy} (hpolicy : policy.Lawful)
    {input : List Symbol} {x : Symbol} {first last : Nat} {d : Derivation}
    (h : Derives policy input x first last d) (hspan : first ≤ last)
    (hlast : last < input.length) :
    (d.rules.map Rule.wordCount).sum = last + 1 - first := by
  induction h with
  | leaf hrule =>
      have hwords := hpolicy.terminal_exact _ _ _ hspan hlast _ hrule
      exact length_of_inputSlice hwords
  | node hsplit hrule _ _ ihLeft ihRight =>
      rw [Derivation.rules, List.map_cons, List.map_append, List.sum_cons, List.sum_append,
        ihLeft (by omega) (by omega), ihRight (by omega) hlast, Rule.wordCount]
      omega

/-- A derivation has one leaf more than it has nodes. -/
theorem Derivation.countP_isTerminal_rules (d : Derivation) :
    d.rules.countP (fun rule => rule.isTerminal) =
      d.rules.countP (fun rule => !rule.isTerminal) + 1 := by
  induction d with
  | leaf rule => rfl
  | node split rule left right ihLeft ihRight =>
      have hbinary : (Rule.binary rule).isTerminal = false := rfl
      simp only [rules, List.countP_cons, List.countP_append, ihLeft, ihRight, hbinary]
      simp only [Bool.not_false, Bool.false_eq_true, if_true, if_false]
      omega

/-! ## Derivations weighed by real numbers -/

/-- The weight of a complete derivation and its root. -/
noncomputable def Derivation.mass (model : Model ℝ) (prior : RootPrior ℝ)
    (d : Derivation) : ℝ :=
  (prior.weight d.root * d.weight model : SumProduct ℝ).value

theorem RootPrior.Nonneg.zero_le_weight {prior : RootPrior ℝ} (hprior : prior.Nonneg)
    (root : Symbol) : 0 ≤ (prior.weight root : SumProduct ℝ).value := by
  cases prior with
  | uniform => exact zero_le_one
  | point symbol =>
      change 0 ≤ (if symbol = root then (1 : SumProduct ℝ) else 0).value
      split
      · exact zero_le_one
      · exact le_rfl
  | weighted weights => exact of_decide_eq_true (hprior root)

theorem Derivation.value_weight (model : Model ℝ) (d : Derivation) :
    (d.weight model : SumProduct ℝ).value = (d.rules.map model.ruleWeight).prod := by
  induction d with
  | leaf rule => exact (mul_one _).symm
  | node split rule left right ihLeft ihRight =>
      change model.ruleWeight (.binary rule) * (left.weight model : SumProduct ℝ).value *
        (right.weight model : SumProduct ℝ).value = _
      rw [ihLeft, ihRight, rules, List.map_cons, List.prod_cons, List.map_append,
        List.prod_append, mul_assoc]

theorem Derivation.mass_eq (model : Model ℝ) (prior : RootPrior ℝ) (d : Derivation) :
    d.mass model prior =
      (prior.weight d.root : SumProduct ℝ).value * (d.rules.map model.ruleWeight).prod := by
  rw [← value_weight]
  rfl

theorem Derivation.mass_nonneg {model : Model ℝ} (hmodel : model.Nonneg)
    {prior : RootPrior ℝ} (hprior : prior.Nonneg) (d : Derivation) :
    0 ≤ d.mass model prior := by
  rw [mass_eq]
  refine mul_nonneg (hprior.zero_le_weight d.root) (List.prod_nonneg ?_)
  intro weight hweight
  obtain ⟨rule, _, rfl⟩ := List.mem_map.mp hweight
  exact of_decide_eq_true (hmodel rule)

/-! ## Reading the tables -/

theorem OutsidePass.entries_normalizedCounts {S : Type} [WeightAlgebra ℝ S]
    [SummingWeights S] {pass : OutsidePass S} (hpartition : pass.partition ≠ 0) :
    pass.normalizedCounts.entries = pass.expectations.entries.map fun e =>
      (e.1, WeightAlgebra.toWeight e.2 / WeightAlgebra.toWeight pass.partition) := by
  have hkeys := pass.expectations.nodup_keys
  have hzero : ¬WeightAlgebra.isZero pass.partition = true := by
    rwa [ExactZero.isZero_iff]
  rw [normalizedCounts, if_neg hzero, ExpectedCounts.entries_addAll_empty]
  · simp only [SummingWeights.toWeight_divide _ _ hpartition]
  · rw [List.map_map]
    exact hkeys

section Readings

variable {S : Type} [WeightAlgebra ℝ S] [SummingWeights S] {model : Model ℝ}
  (hmodel : model.Nonneg) {prior : RootPrior ℝ} (hprior : prior.Nonneg) (width : Nat)
  (width_pos : 0 < width) {input : List Symbol} (hinput : input ≠ [])

include hmodel hprior in
/-- Read as numbers, the tables of any summing algebra are the same. -/
theorem Model.isImage_passOver (input : List Symbol) :
    OutsidePass.IsImage WeightAlgebra.read (model.passOver S width width_pos prior input)
      (model.passOver (SumProduct ℝ) width width_pos prior input) := by
  have hsize : (InsidePass.run model width width_pos input :
        InsidePass (SumProduct ℝ)).cells.size =
      (InsidePass.run model width width_pos input : InsidePass S).cells.size := by
    rw [InsidePass.size_cells_run, InsidePass.size_cells_run]
  exact OutsidePass.isImage_run SummingWeights.weightHom_read hmodel hprior rfl hsize
    (InsidePass.inside_run_map SummingWeights.weightHom_read hmodel width width_pos input)

include hmodel in
theorem NoCancellation.of_model_nonneg (input : List Symbol) :
    NoCancellation (SumProduct ℝ) model input :=
  .of_zero_le (fun rule => hmodel rule) input

/-- What all complete derivations weigh. -/
noncomputable def totalMass (model : Model ℝ) (prior : RootPrior ℝ)
    (input : List Symbol) : ℝ :=
  ((completeDerivations model.policy input).map (Derivation.mass model prior)).sum

variable (hpolicy : model.policy.Lawful)

include hmodel hprior hinput hpolicy

theorem Model.toWeight_partition_passOver :
    WeightAlgebra.toWeight (model.passOver S width width_pos prior input).partition =
      totalMass model prior input := by
  have hpass := InsidePass.complete_run (S := SumProduct ℝ) model hpolicy width width_pos
    hinput
  have himage := (model.isImage_passOver (S := S) hmodel hprior width width_pos input).partition
  have hsum := OutsidePass.partition_run hpass prior
  refine (congrArg SumProduct.value (himage.symm.trans hsum)).trans ?_
  exact SumProduct.value_sum _ _

theorem Model.toWeight_total_marginal_passOver {first last : Nat} (hspan : first ≤ last)
    (hlast : last < input.length) :
    WeightAlgebra.toWeight
        ((model.passOver S width width_pos prior input).marginal.get first last).total =
      ((derivationsThrough model.policy input first last).map
        (Derivation.mass model prior)).sum := by
  have hpass := InsidePass.complete_run (S := SumProduct ℝ) model hpolicy width width_pos
    hinput
  have himage := (model.isImage_passOver (S := S) hmodel hprior width width_pos
    input).marginal first last
  have hsum := OutsidePass.total_marginal_run_eq hpass hpolicy (.of_model_nonneg hmodel input)
    prior hspan hlast
  have htotal := SymbolWeights.total_map (SummingWeights.weightHom_read (S := S))
    ((model.passOver S width width_pos prior input).marginal.get first last)
  rw [← himage] at htotal
  refine (congrArg SumProduct.value (htotal.symm.trans hsum)).trans ?_
  exact SumProduct.value_sum _ _

theorem Model.sum_toWeight_marginals_passOver (x : Symbol) :
    ((spansWidening input.length).map fun span => WeightAlgebra.toWeight
      (((model.passOver S width width_pos prior input).marginal.get span.1
        span.2).get x)).sum =
      ((completeDerivations model.policy input).map fun d =>
        (d.rules.map fun rule => if rule.parent = x then 1 else 0).sum *
          d.mass model prior).sum := by
  have hpass := InsidePass.complete_run (S := SumProduct ℝ) model hpolicy width width_pos
    hinput
  have hsum := congrArg SumProduct.value (OutsidePass.sum_marginals_run hpass hpolicy
    (.of_model_nonneg hmodel input) prior x)
  have himage := (model.isImage_passOver (S := S) hmodel hprior width width_pos input).marginal
  have hread : ∀ span : Nat × Nat, WeightAlgebra.toWeight
        (((model.passOver S width width_pos prior input).marginal.get span.1 span.2).get x) =
      (((model.passOver (SumProduct ℝ) width width_pos prior input).marginal.get span.1
        span.2).get x).value := by
    intro span
    rw [himage, SymbolWeights.get_map SummingWeights.weightHom_read]
    rfl
  have hcount : ∀ rules : List Rule,
      (rules.map fun rule => if rule.parent = x then (1 : SumProduct ℝ) else 0).sum.value =
        (rules.map fun rule => if rule.parent = x then (1 : ℝ) else 0).sum := by
    intro rules
    rw [SumProduct.value_sum]
    congr 2
    funext rule
    exact apply_ite SumProduct.value _ _ _
  simp only [hread]
  rw [SumProduct.value_sum, SumProduct.value_sum] at hsum
  refine hsum.trans ?_
  congr 2
  funext d
  rw [← hcount]
  rfl

/-- A linear form of the expected uses averages what the rules of a derivation add up
to. -/
theorem Model.sum_normalizedCounts_passOver (hmass : totalMass model prior input ≠ 0)
    (f : Rule → ℝ) :
    ((model.passOver S width width_pos prior input).normalizedCounts.entries.map fun e =>
        f e.1 * e.2).sum =
      ((completeDerivations model.policy input).map fun d =>
        (d.rules.map f).sum * d.mass model prior).sum / totalMass model prior input := by
  have hpass := InsidePass.complete_run (S := SumProduct ℝ) model hpolicy width width_pos
    hinput
  have hZ := model.toWeight_partition_passOver (S := S) hmodel hprior width width_pos hinput
    hpolicy
  have hpartition : (model.passOver S width width_pos prior input).partition ≠ 0 := by
    rwa [← hZ, Ne, SummingWeights.toWeight_eq_zero_iff] at hmass
  have himage := congrArg OrderedTable.entries
    (model.isImage_passOver (S := S) hmodel hprior width width_pos input).expectations
  have hsum := congrArg SumProduct.value (OutsidePass.sum_expectations_run hpass hpolicy
    (.of_model_nonneg hmodel input) prior fun rule => ⟨f rule⟩)
  rw [SumProduct.value_sum, SumProduct.value_sum] at hsum
  calc
    _ = ((model.passOver (SumProduct ℝ) width width_pos prior
          input).expectations.entries.map fun e => f e.1 * e.2.value).sum /
            totalMass model prior input := by
      rw [OutsidePass.entries_normalizedCounts hpartition, hZ, himage,
        OrderedTable.mapValues, List.map_map, List.map_map, div_eq_mul_inv,
        ← List.sum_map_mul_right]
      congr 2
      funext e
      simp only [Function.comp_apply, WeightAlgebra.read]
      ring
    _ = _ := by
      congr 1
      refine hsum.trans ?_
      congr 2
      funext d
      change (d.rules.map fun rule => (⟨f rule⟩ : SumProduct ℝ)).sum.value *
        d.mass model prior = _
      rw [SumProduct.value_sum]

theorem Model.sum_filter_normalizedCounts_passOver
    (hmass : totalMass model prior input ≠ 0) (keep : Rule → Bool) (f : Rule → ℝ) :
    (((model.passOver S width width_pos prior input).normalizedCounts.entries.filter
        fun e => keep e.1).map fun e => f e.1 * e.2).sum =
      ((completeDerivations model.policy input).map fun d =>
        ((d.rules.filter keep).map f).sum * d.mass model prior).sum /
          totalMass model prior input := by
  have hsum := model.sum_normalizedCounts_passOver (S := S) hmodel hprior width width_pos
    hinput hpolicy hmass fun rule => if keep rule then f rule else 0
  simp only [sum_filter]
  rw [← hsum]
  congr 2
  funext e
  rw [ite_mul, zero_mul]

end Readings

/-! ## Conservation -/

/-- The expected words of all leaves are those of the input, and leaves are expected once
more often than nodes.  A symbol is expected as often as the parent of a rule as over all
spans, and over one span all symbols together are expected at most once. -/
structure IsConsistentPosterior {S : Type} [WeightAlgebra ℝ S] (input : List Symbol)
    (marginal : (first last : Nat) → SymbolWeights S) (Z : S) (counts : ExpectedCounts ℝ) :
    Prop where
  words_eq : ((terminalEntries counts.entries).map fun e => e.2 * (e.1.wordCount : ℝ)).sum =
    input.length
  leaves_eq : ((terminalEntries counts.entries).map Prod.snd).sum =
    ((binaryEntries counts.entries).map Prod.snd).sum + 1
  parents_eq : ∀ x,
    ((counts.entries.filter fun e => e.1.parent = x).map Prod.snd).sum =
      ((spansWidening input.length).map fun span =>
        WeightAlgebra.toWeight ((marginal span.1 span.2).get x) /
          WeightAlgebra.toWeight Z).sum
  total_le : ∀ first last, first ≤ last → last < input.length →
    WeightAlgebra.toWeight (marginal first last).total ≤ WeightAlgebra.toWeight Z
  total_whole : WeightAlgebra.toWeight (marginal 0 (input.length - 1)).total =
    WeightAlgebra.toWeight Z

section Conservation

variable {S : Type} [WeightAlgebra ℝ S] [SummingWeights S] {model : Model ℝ}
  (hmodel : model.Nonneg) {prior : RootPrior ℝ} (hprior : prior.Nonneg) (width : Nat)
  (width_pos : 0 < width) {input : List Symbol} (hinput : input ≠ [])
  (hpolicy : model.policy.Lawful)

theorem sum_wordCount_terminal_rules (d : Derivation) :
    ((d.rules.filter Rule.isTerminal).map fun rule => (rule.wordCount : ℝ)).sum =
      (d.rules.map Rule.wordCount).sum := by
  rw [sum_filter, Nat.cast_list_sum, List.map_map]
  congr 2
  funext rule
  cases rule with
  | binary rule => exact Nat.cast_zero.symm
  | terminal rule => rfl

include hpolicy hinput in
theorem sum_wordCount_mul_mass :
    ((completeDerivations model.policy input).map fun d =>
        ((d.rules.filter Rule.isTerminal).map fun rule => (rule.wordCount : ℝ)).sum *
          d.mass model prior).sum =
      input.length * totalMass model prior input := by
  have hpos := List.length_pos_of_ne_nil hinput
  rw [totalMass, ← List.sum_map_mul_left]
  congr 1
  apply List.map_congr_left
  intro d hd
  have hwords := (mem_completeDerivations.mp hd).sum_wordCount hpolicy (Nat.zero_le _)
    (by omega : input.length - 1 < input.length)
  rw [sum_wordCount_terminal_rules, hwords]
  congr 2
  omega

theorem sum_leaves_mul_mass :
    ((completeDerivations model.policy input).map fun d =>
        ((d.rules.filter Rule.isTerminal).map fun _ => (1 : ℝ)).sum *
          d.mass model prior).sum =
      ((completeDerivations model.policy input).map fun d =>
        ((d.rules.filter fun rule => !rule.isTerminal).map fun _ => (1 : ℝ)).sum *
          d.mass model prior).sum + totalMass model prior input := by
  have hcount : ∀ (d : Derivation) (keep : Rule → Bool),
      ((d.rules.filter keep).map fun _ => (1 : ℝ)).sum = d.rules.countP keep := by
    intro d keep
    rw [List.map_const', List.sum_replicate, nsmul_one, List.countP_eq_length_filter]
  rw [totalMass, ← List.sum_map_add]
  congr 2
  funext d
  have hleaves : d.rules.countP Rule.isTerminal =
      d.rules.countP (fun rule => !rule.isTerminal) + 1 := d.countP_isTerminal_rules
  rw [hcount, hcount, hleaves]
  push_cast
  ring

include hmodel hprior in
theorem sum_mass_derivationsThrough_le (first last : Nat) :
    ((derivationsThrough model.policy input first last).map
        (Derivation.mass model prior)).sum ≤ totalMass model prior input := by
  apply (List.filter_sublist.map _).sum_le_sum
  intro mass hmass
  obtain ⟨d, _, rfl⟩ := List.mem_map.mp hmass
  exact d.mass_nonneg hmodel hprior

include hmodel hprior hinput hpolicy in
theorem Model.isConsistentPosterior_passOver :
    let pass := model.passOver S width width_pos prior input
    pass.partition ≠ 0 →
      IsConsistentPosterior input pass.marginal.get pass.partition pass.normalizedCounts := by
  intro pass hpartition
  have hZ := model.toWeight_partition_passOver (S := S) hmodel hprior width width_pos hinput
    hpolicy
  have hmass : totalMass model prior input ≠ 0 := by
    rwa [← hZ, Ne, SummingWeights.toWeight_eq_zero_iff]
  have hcounts := model.sum_filter_normalizedCounts_passOver (S := S) hmodel hprior width
    width_pos hinput hpolicy hmass
  have hones : ∀ keep : Rule → Bool,
      ((pass.normalizedCounts.entries.filter fun e => keep e.1).map Prod.snd).sum =
        ((completeDerivations model.policy input).map fun d =>
          ((d.rules.filter keep).map fun _ => (1 : ℝ)).sum * d.mass model prior).sum /
            totalMass model prior input := by
    intro keep
    rw [← hcounts]
    simp only [one_mul]
    rfl
  have hpos := List.length_pos_of_ne_nil hinput
  constructor
  · have hwords := hcounts Rule.isTerminal fun rule => rule.wordCount
    rw [sum_wordCount_mul_mass hinput hpolicy, mul_div_cancel_right₀ _ hmass] at hwords
    rw [← hwords]
    congr 2
    funext e
    exact mul_comm _ _
  · refine (hones Rule.isTerminal).trans ?_
    rw [sum_leaves_mul_mass, add_div, div_self hmass, ← hones]
    rfl
  · intro x
    refine (hones fun rule => rule.parent = x).trans ?_
    simp only [div_eq_mul_inv, List.sum_map_mul_right]
    rw [model.sum_toWeight_marginals_passOver hmodel hprior width width_pos hinput hpolicy,
      hZ]
    simp only [sum_filter, decide_eq_true_eq]
  · intro first last hspan hlast
    rw [model.toWeight_total_marginal_passOver hmodel hprior width width_pos hinput hpolicy
      hspan hlast, hZ]
    exact sum_mass_derivationsThrough_le hmodel hprior first last
  · rw [model.toWeight_total_marginal_passOver hmodel hprior width width_pos hinput hpolicy
      (Nat.zero_le _) (by omega), hZ, derivationsThrough_whole, totalMass]

end Conservation

namespace Chart

/-- After both passes over a nonempty input with a parse the expected uses of rules, the
marginals and the partition function agree. -/
theorem posterior_is_consistent {S : Type} [WeightAlgebra ℝ S] [SummingWeights S]
    (model : Model ℝ) (hpolicy : model.policy.Lawful) (hmodel : model.Nonneg) (width : Nat)
    (width_pos : 0 < width) (prior : RootPrior ℝ) (hprior : prior.Nonneg)
    (input : List Symbol) (hinput : input ≠ []) :
    ∃ (chart : Chart S) (marginal : (first last : Nat) → SymbolWeights S) (Z : S)
      (counts : ExpectedCounts ℝ),
      parseMarginal model width width_pos prior input = .ok chart ∧
        (∀ first last, first ≤ last → last < input.length →
          chart.marginal first last = .ok (marginal first last)) ∧
        chart.partition = .ok Z ∧ chart.normalizedExpectations = .ok counts ∧
        (Z ≠ 0 → IsConsistentPosterior input marginal Z counts) :=
  ⟨_, _, _, _, parseMarginal_eq model width width_pos prior hinput,
    fun _ _ hspan hlast => (reads_outsideDone hspan hlast).2.2, rfl, rfl,
    model.isConsistentPosterior_passOver hmodel hprior width width_pos hinput hpolicy⟩

/-- Logarithms are read as a posterior over four derivations of three words, two of which
may be taken at once. -/
theorem posterior_is_consistent_three_words :
    ∃ (chart : Chart RealLogSum) (Z : RealLogSum) (counts : ExpectedCounts ℝ),
      parseMarginal
          ⟨Policy.scan [⟨⟨0⟩, ⟨0⟩, ⟨0⟩, none⟩]
            [⟨⟨0⟩, [⟨1⟩], none⟩, ⟨⟨0⟩, [⟨1⟩, ⟨1⟩], none⟩], fun _ => 2⁻¹⟩ 1
          Nat.one_pos .uniform [⟨1⟩, ⟨1⟩, ⟨1⟩] = .ok chart ∧
        chart.partition = .ok Z ∧ WeightAlgebra.toWeight Z = 5 / 16 ∧
        chart.normalizedExpectations = .ok counts ∧
        ((terminalEntries counts.entries).map fun e => e.2 * (e.1.wordCount : ℝ)).sum = 3 := by
  let model : Model ℝ := ⟨Policy.scan [⟨⟨0⟩, ⟨0⟩, ⟨0⟩, none⟩]
    [⟨⟨0⟩, [⟨1⟩], none⟩, ⟨⟨0⟩, [⟨1⟩, ⟨1⟩], none⟩], fun _ => 2⁻¹⟩
  have hpolicy : model.policy.Lawful := Policy.scan_lawful (by decide) (by decide)
  have hhalf : (0 : ℝ) ≤ 2⁻¹ := by norm_num
  have hmodel : model.Nonneg := fun _ => decide_eq_true hhalf
  have hinput : ([⟨1⟩, ⟨1⟩, ⟨1⟩] : List Symbol) ≠ [] := by decide
  obtain ⟨chart, marginal, Z, counts, hparse, _, hpartition, hcounts, hconsistent⟩ :=
    posterior_is_consistent (S := RealLogSum) model hpolicy hmodel 1 Nat.one_pos .uniform
      trivial [⟨1⟩, ⟨1⟩, ⟨1⟩] hinput
  have hmass : ∀ d : Derivation, d.mass model .uniform = 2⁻¹ ^ d.rules.length := by
    intro d
    rw [Derivation.mass_eq, show model.ruleWeight = fun _ => 2⁻¹ from rfl, List.map_const',
      List.prod_replicate]
    exact one_mul _
  have hlengths : (completeDerivations model.policy [⟨1⟩, ⟨1⟩, ⟨1⟩]).map
      (fun d => d.rules.length) = [3, 5, 3, 5] := by decide +kernel
  have hsum : totalMass model .uniform [⟨1⟩, ⟨1⟩, ⟨1⟩] = 5 / 16 := by
    have hpowers := congrArg (List.map fun n => (2⁻¹ : ℝ) ^ n) hlengths
    rw [List.map_map] at hpowers
    rw [totalMass, List.map_congr_left fun d _ => hmass d]
    refine (congrArg List.sum hpowers).trans ?_
    norm_num
  have hZ : WeightAlgebra.toWeight Z = 5 / 16 := by
    obtain rfl := Except.ok.inj
      ((parseMarginal_eq model 1 Nat.one_pos .uniform hinput).symm.trans hparse)
    have hprior : (RootPrior.uniform : RootPrior ℝ).Nonneg := trivial
    rw [← hsum, ← Except.ok.inj hpartition]
    exact model.toWeight_partition_passOver hmodel hprior 1 Nat.one_pos hinput hpolicy
  have hne : Z ≠ 0 := by
    rw [Ne, ← SummingWeights.toWeight_eq_zero_iff, hZ]
    norm_num
  refine ⟨chart, Z, counts, hparse, hpartition, hZ, hcounts, ?_⟩
  rw [(hconsistent hne).words_eq]
  norm_num

end Chart

end WeightedParsing
