import Mathlib.Analysis.SpecialFunctions.Log.Basic
import WeightedParsing.Proofs.Chart.Average
import WeightedParsing.Proofs.Corpus.Split
import WeightedParsing.Proofs.Counts.Likelihood
import WeightedParsing.Proofs.Grammar.Index

/-!
# Training does not lower the likelihood

A conditional table is trained by the expected uses of rules in a corpus.  Averages over
the derivations of all its sentences are linear forms of the merged counts, and for those
the trained table has the likeliest probabilities.  The derivations gain at least nothing
on average then, and the partition functions gain no less.
-/

namespace WeightedParsing

/-! ## Linear forms of merged counts -/

theorem ExpectedCounts.sum_entries_merge (f : Rule → ℝ) (counts other : ExpectedCounts ℝ) :
    ((counts.merge other).entries.map fun e => f e.1 * e.2).sum =
      (counts.entries.map fun e => f e.1 * e.2).sum +
        (other.entries.map fun e => f e.1 * e.2).sum := by
  unfold merge
  generalize other.entries = entries
  induction entries generalizing counts with
  | nil => exact (add_zero _).symm
  | cons entry rest ih =>
      have hadd := OrderedTable.sum_updateEntries f entry.1 entry.2 counts.entries
      rw [addAll_cons, ih, List.map_cons, List.sum_cons, ← add_assoc]
      exact congrArg (· + _) hadd

theorem CorpusSummary.sum_counts_ofPasses {S : Type} [WeightAlgebra ℝ S] (f : Rule → ℝ)
    (passes : List (OutsidePass S)) :
    ((ofPasses passes : CorpusSummary ℝ).counts.entries.map fun e => f e.1 * e.2).sum =
      ((passes.filter fun pass => !WeightAlgebra.isZero pass.partition).map fun pass =>
        (pass.normalizedCounts.entries.map fun e => f e.1 * e.2).sum).sum := by
  induction passes with
  | nil => rfl
  | cons pass rest ih =>
      have hmerge := ExpectedCounts.sum_entries_merge f
        (empty.addPass pass : CorpusSummary ℝ).counts (ofPasses rest).counts
      rw [ofPasses_cons]
      refine hmerge.trans ?_
      rw [ih]
      cases hzero : WeightAlgebra.isZero pass.partition
      · have hfirst := ExpectedCounts.sum_entries_merge f .empty pass.normalizedCounts
        rw [List.filter_cons_of_pos (by simpa using hzero), List.map_cons, List.sum_cons]
        congr 1
        rw [addPass, if_neg (by simp [hzero])]
        exact hfirst.trans (zero_add _)
      · rw [List.filter_cons_of_neg (by simp [hzero]), addPass, if_pos hzero]
        exact zero_add _

/-! ## Training -/

/-- Counts one for each use of a rule. -/
noncomputable def usesOf (rule r : Rule) : ℝ := if r = rule then 1 else 0

theorem usesOf_nonneg (rule r : Rule) : 0 ≤ usesOf rule r := by
  unfold usesOf
  positivity

/-- Counts of which every linear form sums up the averages over some inputs. -/
def ExpectedCounts.AreExpected (counts : ExpectedCounts ℝ) (model : Model ℝ)
    (prior : RootPrior ℝ) (inputs : List (List Symbol)) : Prop :=
  ∀ f : Rule → ℝ, (counts.entries.map fun e => f e.1 * e.2).sum =
    (inputs.map (model.average prior f)).sum

namespace ExpectedCounts.AreExpected

variable {counts : ExpectedCounts ℝ} {model : Model ℝ} {prior : RootPrior ℝ}
  {inputs : List (List Symbol)} (h : counts.AreExpected model prior inputs)

include h

theorem amountOf_eq (rule : Rule) :
    amountOf (· = rule) counts.entries =
      (inputs.map (model.average prior (usesOf rule))).sum := by
  rw [← h]
  simp only [usesOf, ite_mul, one_mul, zero_mul]
  rfl

theorem entries_nonneg (hmodel : model.Nonneg) (hprior : prior.Nonneg) :
    ∀ e ∈ counts.entries, 0 ≤ e.2 := by
  intro e he
  rw [← amountOf_of_mem counts.table.nodup_keys he]
  refine le_of_le_of_eq (sum_map_nonneg ?_) (h.amountOf_eq e.1).symm
  intro input _
  exact model.average_nonneg hmodel hprior (usesOf_nonneg e.1) input

end ExpectedCounts.AreExpected

/-- A table that has counted, times a factor, the uses of rules that are expected in some
inputs under the probabilities `p`. -/
structure TrainedOn (policy : Policy) (p : Rule → ℝ) (prior : RootPrior ℝ)
    (inputs : List (List Symbol)) (counts : ExpectedCounts ℝ) (factor : ℝ)
    (table : ConditionalTable ℝ) : Prop where
  conditional : ConditionalTable.IsConditional p
  prior_nonneg : prior.Nonneg
  expected : counts.AreExpected ⟨policy, p⟩ prior inputs
  factor_pos : 0 < factor
  counted : table.HasCounted (counts.entries.map fun e => (e.1, factor * e.2))

theorem ConditionalTable.IsConditional.model_nonneg {p : Rule → ℝ} (hp : IsConditional p)
    (policy : Policy) : (⟨policy, p⟩ : Model ℝ).Nonneg :=
  fun rule => decide_eq_true (hp.nonneg rule)

namespace TrainedOn

variable {policy : Policy} {p : Rule → ℝ} {prior : RootPrior ℝ}
  {inputs : List (List Symbol)} {counts : ExpectedCounts ℝ} {factor : ℝ}
  {table : ConditionalTable ℝ} (h : TrainedOn policy p prior inputs counts factor table)

include h

theorem old_nonneg : (⟨policy, p⟩ : Model ℝ).Nonneg := h.conditional.model_nonneg policy

theorem new_nonneg : (⟨policy, table.probability⟩ : Model ℝ).Nonneg :=
  h.counted.isConditional.model_nonneg policy

theorem ruleCount_eq (rule : Rule) :
    table.ruleCount rule =
      factor * (inputs.map (Model.average ⟨policy, p⟩ prior (usesOf rule))).sum := by
  rw [h.counted.ruleCount_eq, amountOf_scaled, h.expected.amountOf_eq]

theorem old_ne_zero_of_ruleCount {rule : Rule} (hrule : table.ruleCount rule ≠ 0) :
    p rule ≠ 0 := by
  intro hzero
  apply hrule
  have haverage : ∀ input ∈ inputs,
      Model.average ⟨policy, p⟩ prior (usesOf rule) input = 0 := by
    intro input _
    apply Model.average_eq_zero
    intro r hr
    obtain rfl : r = rule := by
      by_contra hne
      exact hr (if_neg hne)
    exact hzero
  rw [h.ruleCount_eq, sum_map_eq_zero haverage, mul_zero]

theorem sum_average_gain_nonneg :
    0 ≤ (inputs.map (Model.average ⟨policy, p⟩ prior (logGain p table.probability))).sum := by
  have hgain := h.counted.log_likelihood_gain_nonneg h.conditional fun rule =>
    h.old_ne_zero_of_ruleCount
  have hscaled : ∀ e : Rule × ℝ,
      (Real.log (table.probability e.1) - Real.log (p e.1)) * (factor * e.2) =
        factor * (logGain p table.probability e.1 * e.2) :=
    fun e => mul_left_comm _ _ _
  simp only [List.map_map, Function.comp_def, hscaled, List.sum_map_mul_left] at hgain
  rw [h.expected] at hgain
  exact nonneg_of_mul_nonneg_right hgain h.factor_pos

/-- Training leaves no derivation without a weight that had one. -/
theorem mass_ne_zero {input : List Symbol} (hinput : input ∈ inputs) {d : Derivation}
    (hd : d ∈ completeDerivations policy input) (hmass : d.mass ⟨policy, p⟩ prior ≠ 0) :
    d.mass ⟨policy, table.probability⟩ prior ≠ 0 := by
  rw [Derivation.mass_ne_zero_iff]
  refine ⟨(Derivation.mass_ne_zero_iff.mp hmass).1, ?_⟩
  intro rule hrule
  have haverage : 0 < Model.average ⟨policy, p⟩ prior (usesOf rule) input :=
    Model.average_pos h.old_nonneg h.prior_nonneg (usesOf_nonneg rule) hd hmass hrule
      (by simp [usesOf])
  have hsum : Model.average ⟨policy, p⟩ prior (usesOf rule) input ≤
      (inputs.map (Model.average ⟨policy, p⟩ prior (usesOf rule))).sum :=
    le_sum_map (fun other _ => Model.average_nonneg h.old_nonneg h.prior_nonneg
      (usesOf_nonneg rule) other) hinput
  apply h.counted.probability_ne_zero
  rw [h.ruleCount_eq]
  exact (mul_pos h.factor_pos (haverage.trans_le hsum)).ne'

theorem totalMass_pos {input : List Symbol} (hinput : input ∈ inputs)
    (hmass : totalMass ⟨policy, p⟩ prior input ≠ 0) :
    0 < totalMass ⟨policy, table.probability⟩ prior input := by
  obtain ⟨d, hd, hne⟩ : ∃ d ∈ completeDerivations policy input,
      d.mass ⟨policy, p⟩ prior ≠ 0 := by
    by_contra hnone
    apply hmass
    apply sum_map_eq_zero
    intro d hd
    by_contra hne
    exact hnone ⟨d, hd, hne⟩
  have hpos := d.mass_pos h.new_nonneg h.prior_nonneg (h.mass_ne_zero hinput hd hne)
  exact hpos.trans_le (mass_le_totalMass h.new_nonneg h.prior_nonneg hd)

/-- The product of the partition functions is not lowered by training. -/
theorem prod_totalMass_le
    (hinputs : ∀ input ∈ inputs, totalMass ⟨policy, p⟩ prior input ≠ 0) :
    (inputs.map (totalMass ⟨policy, p⟩ prior)).prod ≤
      (inputs.map (totalMass ⟨policy, table.probability⟩ prior)).prod := by
  have hbefore : ∀ input ∈ inputs, 0 < totalMass ⟨policy, p⟩ prior input :=
    fun input hinput => lt_of_le_of_ne (totalMass_nonneg h.old_nonneg h.prior_nonneg input)
      (Ne.symm (hinputs input hinput))
  have hafter : ∀ input ∈ inputs, 0 < totalMass ⟨policy, table.probability⟩ prior input :=
    fun input hinput => h.totalMass_pos hinput (hinputs input hinput)
  have hgain := List.sum_le_sum fun input hinput =>
    Model.average_gain_le h.old_nonneg h.new_nonneg h.prior_nonneg
      (fun d hd => h.mass_ne_zero hinput hd) (hbefore input hinput) (hafter input hinput)
  have hlog : (inputs.map fun input => Real.log (totalMass ⟨policy, p⟩ prior input)).sum ≤
      (inputs.map fun input =>
        Real.log (totalMass ⟨policy, table.probability⟩ prior input)).sum := by
    rw [List.sum_map_add] at hgain
    exact (le_add_of_nonneg_left h.sum_average_gain_nonneg).trans hgain
  have hpos : ∀ r : Rule → ℝ, (∀ input ∈ inputs, 0 < totalMass ⟨policy, r⟩ prior input) →
      ∀ mass ∈ inputs.map (totalMass ⟨policy, r⟩ prior), 0 < mass :=
    fun _ => List.forall_mem_map.mpr
  rw [← Real.log_le_log_iff (List.prod_pos (hpos p hbefore))
    (List.prod_pos (hpos _ hafter)),
    Real.log_list_prod fun mass hmass => (hpos p hbefore mass hmass).ne',
    Real.log_list_prod fun mass hmass => (hpos _ hafter mass hmass).ne',
    List.map_map, List.map_map]
  exact hlog

end TrainedOn

/-! ## Training on a corpus -/

/-- The partition functions of sentences under a model. -/
def Model.HasPartitions {S : Type} [WeightAlgebra ℝ S] (model : Model ℝ) (width : Nat)
    (width_pos : 0 < width) (prior : RootPrior ℝ) (sentences : List (List Symbol))
    (Z : List Symbol → S) : Prop :=
  ∀ sentence ∈ sentences, ∃ chart : Chart S,
    Chart.parseMarginal model width width_pos prior sentence = .ok chart ∧
      chart.partition = .ok (Z sentence)

theorem Model.hasPartitions_passOver {S : Type} [WeightAlgebra ℝ S] (model : Model ℝ)
    (width : Nat) (width_pos : 0 < width) (prior : RootPrior ℝ)
    {sentences : List (List Symbol)} (hsentences : [] ∉ sentences) :
    model.HasPartitions width width_pos prior sentences fun sentence =>
      (model.passOver S width width_pos prior sentence).partition := by
  intro sentence hsentence
  have hne : sentence ≠ [] := fun h => hsentences (h ▸ hsentence)
  exact ⟨_, Chart.parseMarginal_eq model width width_pos prior hne, rfl⟩

/-- The sentences of a corpus with a partition function that is not zero. -/
def parsedUnder {S : Type} [WeightAlgebra ℝ S] (Z : List Symbol → S)
    (sentences : List (List Symbol)) : List (List Symbol) :=
  sentences.filter fun sentence => !WeightAlgebra.isZero (Z sentence)

theorem mem_parsedUnder {S : Type} [WeightAlgebra ℝ S] [SummingWeights S]
    {Z : List Symbol → S} {sentences : List (List Symbol)} {sentence : List Symbol} :
    sentence ∈ parsedUnder Z sentences ↔ sentence ∈ sentences ∧ Z sentence ≠ 0 := by
  rw [parsedUnder, List.mem_filter, Bool.not_eq_true', ← Bool.not_eq_true,
    ExactZero.isZero_iff]

theorem parsedUnder_eq_self {S : Type} [WeightAlgebra ℝ S] [SummingWeights S]
    {Z : List Symbol → S} {sentences : List (List Symbol)}
    (h : ∀ sentence ∈ sentences, Z sentence ≠ 0) : parsedUnder Z sentences = sentences := by
  rw [parsedUnder, List.filter_eq_self]
  intro sentence hsentence
  exact (List.mem_filter.mp (mem_parsedUnder.mpr ⟨hsentence, h sentence hsentence⟩)).2

section Corpus

variable {S : Type} [WeightAlgebra ℝ S] [SummingWeights S] {model : Model ℝ}
  (hmodel : model.Nonneg) {prior : RootPrior ℝ} (hprior : prior.Nonneg) {width : Nat}
  {width_pos : 0 < width} (hpolicy : model.policy.Lawful)
  {sentences : List (List Symbol)} (hsentences : [] ∉ sentences) {Z : List Symbol → S}
  (hZ : model.HasPartitions width width_pos prior sentences Z)

include hmodel hprior hpolicy hsentences

include hZ in
theorem Model.HasPartitions.toWeight_eq {sentence : List Symbol}
    (hsentence : sentence ∈ sentences) :
    WeightAlgebra.toWeight (Z sentence) = totalMass model prior sentence := by
  have hne : sentence ≠ [] := fun h => hsentences (h ▸ hsentence)
  obtain ⟨chart, hchart, hpartition⟩ := hZ sentence hsentence
  obtain rfl := Except.ok.inj
    ((Chart.parseMarginal_eq model width width_pos prior hne).symm.trans hchart)
  rw [← Except.ok.inj hpartition]
  exact model.toWeight_partition_passOver hmodel hprior width width_pos hne hpolicy

include hZ in
theorem Model.HasPartitions.map_toWeight_eq {part : List (List Symbol)}
    (hpart : ∀ sentence ∈ part, sentence ∈ sentences) :
    (part.map fun sentence => WeightAlgebra.toWeight (Z sentence)) =
      part.map (totalMass model prior) := by
  apply List.map_congr_left
  intro sentence hsentence
  exact hZ.toWeight_eq hmodel hprior hpolicy hsentences (hpart sentence hsentence)

include hZ in
theorem Model.HasPartitions.eq_zero_iff {sentence : List Symbol}
    (hsentence : sentence ∈ sentences) :
    Z sentence = 0 ↔ totalMass model prior sentence = 0 := by
  rw [← hZ.toWeight_eq hmodel hprior hpolicy hsentences hsentence,
    SummingWeights.toWeight_eq_zero_iff]

/-- The counts of a corpus are the expected uses in the sentences with a parse. -/
theorem Model.areExpected_counts_ofPasses :
    (CorpusSummary.ofPasses (sentences.map (model.passOver S width width_pos
      prior))).counts.AreExpected model prior (parsedUnder (fun sentence =>
        (model.passOver S width width_pos prior sentence).partition) sentences) := by
  intro f
  rw [CorpusSummary.sum_counts_ofPasses, List.filter_map, List.map_map]
  congr 1
  apply List.map_congr_left
  intro sentence hparsed
  obtain ⟨hsentence, hnonzero⟩ := mem_parsedUnder.mp hparsed
  have hne : sentence ≠ [] := fun h => hsentences (h ▸ hsentence)
  have hZ := model.hasPartitions_passOver (S := S) width width_pos prior hsentences
  rw [Ne, hZ.eq_zero_iff hmodel hprior hpolicy hsentences hsentence] at hnonzero
  exact model.sum_normalizedCounts_passOver hmodel hprior width width_pos hne hpolicy
    hnonzero f

end Corpus

namespace ConditionalTable

theorem HasCounted.trained {table : ConditionalTable ℝ} {uses : List (Rule × ℝ)}
    (h : table.HasCounted uses) {counts : ExpectedCounts ℝ}
    (hcounts : ∀ e ∈ counts.entries, 0 ≤ e.2) {factor : ℝ} (hfactor : 0 < factor) :
    (table.clear.increment counts factor).HasCounted
      (counts.entries.map fun e => (e.1, factor * e.2)) :=
  h.clear.increment fun e he => mul_nonneg hfactor.le (hcounts e he)

/-- Training a table anew by the expectations of a corpus keeps every sentence that had a
parse, and does not lower the product of their partition functions. -/
theorem likelihood_le_trained {S : Type} [WeightAlgebra ℝ S] [SummingWeights S]
    (rules : List Rule) (table : ConditionalTable ℝ)
    (htable : Reached (rules.foldl Grammar.add .empty) table) (width : Nat)
    (width_pos : 0 < width) (prior : RootPrior ℝ) (hprior : prior.Nonneg) (threads : Nat)
    (sentences : List (List Symbol)) (hsentences : [] ∉ sentences) (factor : ℝ)
    (hfactor : 0 < factor) :
    let policy := (rules.foldl Grammar.add .empty).policy
    ∃ (summary : CorpusSummary ℝ) (Z Z' : List Symbol → S),
      Model.summarizeCorpus S ⟨policy, table.probability⟩ width width_pos prior threads
          sentences = .ok summary ∧
        Model.HasPartitions ⟨policy, table.probability⟩ width width_pos prior sentences Z ∧
        Model.HasPartitions
          ⟨policy, (table.clear.increment summary.counts factor).probability⟩ width width_pos
          prior sentences Z' ∧
        (∀ sentence ∈ sentences, Z sentence ≠ 0 → Z' sentence ≠ 0) ∧
        ((parsedUnder Z sentences).map fun sentence =>
            WeightAlgebra.toWeight (Z sentence)).prod ≤
          ((parsedUnder Z sentences).map fun sentence =>
            WeightAlgebra.toWeight (Z' sentence)).prod := by
  intro policy
  have hpolicy : policy.Lawful := (Grammar.Indexed.empty.foldl_add rules).policy_lawful
  obtain ⟨uses, huses⟩ := htable.exists_hasCounted
  let before : Model ℝ := ⟨policy, table.probability⟩
  have hbefore : before.Nonneg := huses.isConditional.model_nonneg policy
  let Z : List Symbol → S := fun sentence =>
    (before.passOver S width width_pos prior sentence).partition
  have hZ := before.hasPartitions_passOver (S := S) width width_pos prior hsentences
  let summary : CorpusSummary ℝ :=
    .ofPasses (sentences.map (before.passOver S width width_pos prior))
  have hcounts : summary.counts.AreExpected before prior (parsedUnder Z sentences) :=
    Model.areExpected_counts_ofPasses hbefore hprior hpolicy hsentences
  have htrained : TrainedOn policy table.probability prior (parsedUnder Z sentences)
      summary.counts factor (table.clear.increment summary.counts factor) :=
    ⟨huses.isConditional, hprior, hcounts, hfactor,
      huses.trained (hcounts.entries_nonneg hbefore hprior) hfactor⟩
  let after : Model ℝ := ⟨policy, (table.clear.increment summary.counts factor).probability⟩
  let Z' : List Symbol → S := fun sentence =>
    (after.passOver S width width_pos prior sentence).partition
  have hZ' := after.hasPartitions_passOver (S := S) width width_pos prior hsentences
  have hmass : ∀ sentence ∈ parsedUnder Z sentences, totalMass before prior sentence ≠ 0 := by
    intro sentence hparsed
    obtain ⟨hsentence, hnonzero⟩ := mem_parsedUnder.mp hparsed
    rwa [Ne, ← hZ.eq_zero_iff hbefore hprior hpolicy hsentences hsentence]
  refine ⟨summary, Z, Z', ?_, hZ, hZ', ?_, ?_⟩
  · rw [Model.summarizeCorpus_eq SummingWeights.selective_eq_false, if_neg hsentences]
  · intro sentence hsentence hnonzero
    have hparsed := mem_parsedUnder.mpr ⟨hsentence, hnonzero⟩
    rw [Ne, hZ'.eq_zero_iff htrained.new_nonneg hprior hpolicy hsentences hsentence]
    exact (htrained.totalMass_pos hparsed (hmass sentence hparsed)).ne'
  · have hmem : ∀ sentence ∈ parsedUnder Z sentences, sentence ∈ sentences :=
      fun sentence hparsed => (mem_parsedUnder.mp hparsed).1
    rw [hZ.map_toWeight_eq hbefore hprior hpolicy hsentences hmem,
      hZ'.map_toWeight_eq htrained.new_nonneg hprior hpolicy hsentences hmem]
    exact htrained.prod_totalMass_le hmass

/-- A table is trained by the one derivation of two words. -/
theorem likelihood_le_trained_two_words :
    let one : TerminalRule := ⟨⟨0⟩, [⟨1⟩], none⟩
    let two : TerminalRule := ⟨⟨0⟩, [⟨2⟩], none⟩
    let pair : BinaryRule := ⟨⟨0⟩, ⟨0⟩, ⟨0⟩, none⟩
    let rules : List Rule := [.terminal one, .terminal two, .binary pair]
    let grammar := rules.foldl Grammar.add .empty
    let counts : ExpectedCounts ℝ := ExpectedCounts.empty.addAll
      [(.terminal one, 1), (.terminal two, 2), (.binary pair, 1)]
    let table : ConditionalTable ℝ := (ofGrammar grammar).clear.increment counts 1
    ∃ (summary : CorpusSummary ℝ) (Z Z' : List Symbol → RealLogSum),
      Model.summarizeCorpus RealLogSum ⟨grammar.policy, table.probability⟩ 1 Nat.one_pos
          .uniform 1 [[⟨1⟩, ⟨2⟩]] = .ok summary ∧
        Model.HasPartitions ⟨grammar.policy, table.probability⟩ 1 Nat.one_pos .uniform
          [[⟨1⟩, ⟨2⟩]] Z ∧
        Model.HasPartitions
          ⟨grammar.policy, (table.clear.increment summary.counts 1).probability⟩ 1 Nat.one_pos
          .uniform [[⟨1⟩, ⟨2⟩]] Z' ∧
        WeightAlgebra.toWeight (Z [⟨1⟩, ⟨2⟩]) = 1 / 32 ∧
        1 / 32 ≤ WeightAlgebra.toWeight (Z' [⟨1⟩, ⟨2⟩]) := by
  intro one two pair rules grammar counts table
  have hpolicy : grammar.policy = Policy.scan [pair] [one, two] := by
    rw [(Grammar.Indexed.empty.foldl_add rules).policy_eq_scan]
    simp [rules, Grammar.add, Grammar.addTerminal, Grammar.addBinary, Grammar.binaryRules,
      Grammar.terminalRules, Grammar.empty, one, two]
  have hcomplete : completeDerivations grammar.policy [⟨1⟩, ⟨2⟩] =
      [.node 0 pair (.leaf one) (.leaf two)] := by
    rw [hpolicy]
    simp only [pair, one, two]
    decide +kernel
  have hentries : counts.entries =
      [(.terminal one, 1), (.terminal two, 2), (.binary pair, 1)] :=
    ExpectedCounts.entries_addAll_empty (by simp [one, two])
  have hcounts : ∀ e ∈ counts.entries, 0 ≤ e.2 := by
    rw [hentries]
    simp
  have hcounted : table.HasCounted _ :=
    (exists_hasCounted_ofGrammar grammar).choose_spec.trained hcounts one_pos
  have htable : Reached grammar table := by
    refine .increment _ 1 (.clear .ofGrammar) fun e he => ?_
    rw [one_mul]
    exact hcounts e he
  obtain ⟨summary, Z, Z', hsummary, hZ, hZ', _, hle⟩ :=
    likelihood_le_trained (S := RealLogSum) rules table htable 1 Nat.one_pos .uniform trivial 1
      [[⟨1⟩, ⟨2⟩]] (by simp) 1 one_pos
  have hmass : totalMass ⟨grammar.policy, table.probability⟩ .uniform [⟨1⟩, ⟨2⟩] = 1 / 32 := by
    rw [totalMass, hcomplete, List.map_singleton, List.sum_singleton, Derivation.mass_eq]
    refine (one_mul _).trans ?_
    simp only [Derivation.rules, List.singleton_append, List.map_cons, List.map_nil,
      List.prod_cons, List.prod_nil, hcounted.probability_eq, hcounted.ruleCount_eq,
      hcounted.parentCount_eq, hentries]
    simp only [one, two, pair, Rule.parent, amountOf_cons, amountOf_nil, reduceCtorEq,
      if_false]
    norm_num
  have hvalue : WeightAlgebra.toWeight (Z [⟨1⟩, ⟨2⟩]) = 1 / 32 := by
    have hprior : (RootPrior.uniform : RootPrior ℝ).Nonneg := trivial
    rw [← hmass]
    exact hZ.toWeight_eq (hcounted.isConditional.model_nonneg _) hprior
      (Grammar.Indexed.empty.foldl_add rules).policy_lawful (by simp) List.mem_cons_self
  refine ⟨summary, Z, Z', hsummary, hZ, hZ', hvalue, ?_⟩
  have hne : Z [⟨1⟩, ⟨2⟩] ≠ 0 := by
    rw [Ne, ← SummingWeights.toWeight_eq_zero_iff, hvalue]
    norm_num
  rw [parsedUnder_eq_self fun sentence hsentence =>
    (List.mem_singleton.mp hsentence).symm ▸ hne] at hle
  simpa [hvalue] using hle

end ConditionalTable

end WeightedParsing
