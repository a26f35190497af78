import WeightedParsing.Proofs.Chart.BestTree
import WeightedParsing.Proofs.Chart.Expectation
import WeightedParsing.Proofs.Derivation.Pruning
import WeightedParsing.Proofs.Derivation.Spelling

/-!
# Charts of a pruned policy

Everything that is read off a chart sums some derivations of the policy.  Where no
weight is below zero, a policy that leaves rules out sums some of the same derivations
and no others, so that every weight is approximated from below and every tree is one of
the other policy.
-/

namespace WeightedParsing

/-- A weight that can be read off a chart after both passes. -/
inductive Quantity where
  | inside (symbol : Symbol) (first last : Nat)
  | marginal (symbol : Symbol) (first last : Nat)
  | partition
  | expectation (rule : Rule)

namespace Quantity

/-- Its span, if it has one, lies within an input. -/
def InRange (length : Nat) : Quantity → Prop
  | inside _ first last => first ≤ last ∧ last < length
  | marginal _ first last => first ≤ last ∧ last < length
  | partition => True
  | expectation _ => True

/-- The derivations that are summed. -/
def derivations (policy : Policy) (input : List Symbol) : Quantity → List Derivation
  | inside symbol first last => WeightedParsing.derivations policy input symbol first last
  | marginal symbol first last => derivationsWith policy input symbol first last
  | partition => completeDerivations policy input
  | expectation rule => occurrences policy input rule

/-- The span of the derivations that are summed. -/
def span (length : Nat) : Quantity → Nat × Nat
  | inside _ first last => (first, last)
  | _ => (0, length - 1)

variable {K S : Type} [WeightAlgebra K S]

/-- What a derivation adds to the sum. -/
def weigh [Scalar K] (model : Model K) (prior : RootPrior K) :
    Quantity → Derivation → S
  | inside _ _ _, d => d.weight model
  | _, d => prior.weight d.root * d.weight model

def read (chart : Chart S) : Quantity → Except ChartError S
  | inside symbol first last => do
      let weights ← chart.inside first last
      return weights.get symbol
  | marginal symbol first last => do
      let weights ← chart.marginal first last
      return weights.get symbol
  | partition => chart.partition
  | expectation rule => do
      let entries ←
        if rule.isTerminal then chart.terminalExpectations else chart.binaryExpectations
      return readEntry entries rule

end Quantity

/-! ## Quantities as sums -/

section Sums

variable {K S : Type} [Scalar K] [WeightAlgebra K S] [CommutativeWeights K S]

attribute [local instance] LawfulWeights.semiring

/-- Every quantity of a finished chart sums its derivations. -/
theorem Quantity.read_eq_sum {model : Model K} (hpolicy : model.policy.Covering)
    {input : List Symbol} (hinput : input ≠ []) (hfree : NoCancellation S model input)
    (width : Nat) (width_pos : 0 < width) (prior : RootPrior K) {chart : Chart S}
    (hchart : Chart.parseMarginal model width width_pos prior input = .ok chart)
    {quantity : Quantity} (hrange : quantity.InRange input.length) :
    quantity.read chart = .ok ((quantity.derivations model.policy input).map
      (quantity.weigh model prior)).sum := by
  rw [Chart.parseMarginal_eq model width width_pos prior hinput] at hchart
  cases hchart
  have hpass := InsidePass.complete_run (S := S) model hpolicy width width_pos hinput
  cases quantity with
  | inside x first last =>
      obtain ⟨hspan, hlast⟩ := hrange
      rw [read, (Chart.reads_outsideDone hspan hlast).1]
      exact congrArg Except.ok (hpass.get_inside first last hspan hlast x)
  | marginal x first last =>
      obtain ⟨hspan, hlast⟩ := hrange
      rw [read, (Chart.reads_outsideDone hspan hlast).2.2]
      exact congrArg Except.ok
        (OutsidePass.get_marginal_run hpass hpolicy hfree prior hspan hlast x)
  | partition => exact congrArg Except.ok (OutsidePass.partition_run hpass prior)
  | expectation rule =>
      have hweight := OutsidePass.weightAt_expectations_run hpass hpolicy hfree prior rule
      cases rule with
      | binary rule =>
          rw [← readEntry_filter _ (fun r => !r.isTerminal) rfl] at hweight
          exact congrArg Except.ok hweight
      | terminal rule =>
          rw [← readEntry_filter _ Rule.isTerminal rfl] at hweight
          exact congrArg Except.ok hweight

end Sums

/-! ## Fewer derivations -/

theorem Quantity.derivations_subperm {policy other : Policy} {input : List Symbol}
    (hpolicy : policy.Covering) (hprunes : policy.Prunes other input)
    (hinput : input ≠ []) {quantity : Quantity}
    (hrange : quantity.InRange input.length) :
    (quantity.derivations policy input).Subperm (quantity.derivations other input) := by
  have hcomplete : (completeDerivations policy input).Subperm
      (completeDerivations other input) :=
    List.subperm_of_subset (nodup_derivationsOver hpolicy _ _ _)
      (completeDerivations_subset_of_prunes hprunes hinput)
  cases quantity with
  | inside x first last =>
      exact List.subperm_of_subset (isListing_derivations hpolicy _ _ _ _).nodup
        (derivations_subset_of_prunes hprunes x hrange.1 hrange.2)
  | marginal x first last => exact hcomplete.filter _
  | partition => exact hcomplete
  | expectation rule =>
      obtain ⟨part, hperm, hpart⟩ := hcomplete
      exact ⟨_, hperm.flatMap_right _, hpart.flatMap _⟩

theorem Quantity.derivations_restrict (keep : (first last split : Nat) → BinaryRule → Bool)
    (policy : Policy) (input : List Symbol) (quantity : Quantity) :
    quantity.derivations (policy.restrict keep) input =
      (quantity.derivations policy input).filter fun d =>
        d.keeps keep (quantity.span input.length).1 (quantity.span input.length).2 := by
  cases quantity with
  | inside x first last => exact WeightedParsing.derivations_restrict x first last
  | marginal x first last => exact derivationsWith_restrict x first last
  | partition => exact completeDerivations_restrict
  | expectation rule => exact occurrences_restrict rule

section Ordered

attribute [local instance] LawfulWeights.semiring

namespace Quantity

variable {K S : Type} [Scalar K] [WeightAlgebra K S] {model other : Model K}
  {prior : RootPrior K}

theorem weigh_congr (hweight : model.ruleWeight = other.ruleWeight)
    (quantity : Quantity) (d : Derivation) :
    quantity.weigh model prior d = (quantity.weigh other prior d : S) := by
  cases quantity <;> simp only [weigh, d.weight_congr hweight]

variable [OrderedWeights K S]

theorem weigh_eq_zero {d : Derivation} (hd : d.weight model = (0 : S))
    (quantity : Quantity) : quantity.weigh model prior d = (0 : S) := by
  cases quantity <;> simp [weigh, hd]

theorem zero_le_weigh (hrules : ∀ rule, Ranked.le 0 (model.weigh rule : S) = true)
    (hprior : ∀ x, Ranked.le 0 (prior.weight x : S) = true) (quantity : Quantity)
    (d : Derivation) : Ranked.le 0 (quantity.weigh model prior d : S) = true := by
  have hd := d.zero_le_weight hrules
  cases quantity with
  | inside _ _ _ => exact hd
  | marginal _ _ _ => exact zero_le_mul (hprior _) hd
  | partition => exact zero_le_mul (hprior _) hd
  | expectation _ => exact zero_le_mul (hprior _) hd

end Quantity

end Ordered

/-! ## Trees -/

namespace ParseTree

variable {K S : Type} [WeightAlgebra K S]

theorem Spells.of_prunes {model other : Model K} {input : List Symbol} {x : Symbol}
    {first last : Nat} {tree : ParseTree S} (h : tree.Spells model input x first last)
    (hweight : model.ruleWeight = other.ruleWeight)
    (hprunes : model.policy.Prunes other.policy input) (hspan : first ≤ last)
    (hlast : last < input.length) : tree.Spells other input x first last := by
  obtain ⟨d, hd, htree, hsame⟩ := h
  refine ⟨d, hd.of_prunes hprunes hspan hlast, ?_, ?_⟩
  · rw [htree, d.tree_congr hweight]
  · rw [hsame, d.weight_congr hweight]

end ParseTree

namespace Chart

variable {K S : Type} [Scalar K] [WeightAlgebra K S] [SelectiveWeights K S]
  {model : Model K} {width : Nat} {width_pos : 0 < width} {prior : RootPrior K}
  {input : List Symbol} {chart : Chart S} {first last : Nat}

theorem exists_bestTreeWithSpan (hpolicy : model.policy.Covering) (hinput : input ≠ [])
    (hchart : parseMarginal model width width_pos prior input = .ok chart)
    (hspan : first ≤ last) (hlast : last < input.length) (x : Symbol) :
    ∃ best, chart.bestTreeWithSpan x first last = .ok best ∧
      (best = none ↔ derivationSum model input x first last = (0 : S)) ∧
      ∀ tree ∈ best, tree.Spells model input x first last ∧
        tree.weight = derivationSum model input x first last := by
  rw [parseMarginal_eq model width width_pos prior hinput] at hchart
  cases hchart
  refine ⟨_, bestTreeWithSpan_eq rfl MaximumWeights.selective hspan hlast x, ?_⟩
  by_cases hzero : derivationSum model input x first last = (0 : S)
  · rw [InsidePass.bestTree_run_eq_none model width width_pos input hpolicy hspan hlast
      hzero]
    simp [hzero]
  · obtain ⟨d, hd, hbest, hweight, _, _⟩ :=
      InsidePass.exists_bestTree_run_eq model width width_pos input hpolicy hspan hlast
        hzero
    rw [hbest]
    refine ⟨by simp [hzero], ?_⟩
    intro tree htree
    obtain rfl := Option.some.inj htree
    have hsame := d.weight_tree (S := S) model first last
    exact ⟨⟨d, hd, rfl, hsame⟩, hsame.trans hweight⟩

theorem exists_bestTreesWithSpan (hpolicy : model.policy.Covering) (hinput : input ≠ [])
    (hchart : parseMarginal model width width_pos prior input = .ok chart)
    (hspan : first ≤ last) (hlast : last < input.length) (x : Symbol) {count : Nat}
    (count_pos : 0 < count) (hcount : count ≤ width) :
    ∃ trees, chart.bestTreesWithSpan x first last count = .ok trees ∧
      ∀ tree ∈ trees, tree.Spells model input x first last := by
  rw [parseMarginal_eq model width width_pos prior hinput] at hchart
  cases hchart
  refine ⟨_, bestTreesWithSpan_eq rfl MaximumWeights.selective count_pos hcount hspan
    hlast x, ?_⟩
  have hbest := (InsidePass.bestTrees_spellsHeaviest (S := S) model width width_pos input
    hpolicy count_pos hcount hspan hlast x).areBestTrees hpolicy
  intro tree htree
  obtain ⟨d, hd, htree, hweight⟩ := hbest.of_derivation tree htree
  rw [nonzeroDerivations, List.mem_filter, mem_derivations] at hd
  exact ⟨d, hd.1, htree, hweight⟩

end Chart

/-! ## Two charts -/

namespace Chart

variable {K S : Type} [WeightAlgebra K S]

/-- No quantity of a chart exceeds that of another one. -/
def AtMost (length : Nat) (chart other : Chart S) : Prop :=
  ∀ quantity : Quantity, quantity.InRange length → ∃ a b,
    quantity.read chart = .ok a ∧ quantity.read other = .ok b ∧ Ranked.le a b = true

/-- The best trees of a chart spell out derivations of a model, and none of them
outweighs the best tree of another chart. -/
structure TreesWithin (model : Model K) (input : List Symbol) (chart other : Chart S) :
    Prop where
  bestTree : ∀ x first last, first ≤ last → last < input.length → ∃ best others,
    chart.bestTreeWithSpan x first last = .ok best ∧
      other.bestTreeWithSpan x first last = .ok others ∧
      ∀ tree ∈ best, tree.Spells model input x first last ∧
        ∃ heavier ∈ others, Ranked.le tree.weight heavier.weight = true
  bestTrees : ∀ x first last count, first ≤ last → last < input.length → 0 < count →
    count ≤ chart.beamWidth → ∃ trees,
      chart.bestTreesWithSpan x first last count = .ok trees ∧
        ∀ tree ∈ trees, tree.Spells model input x first last
  whole : ∀ x, chart.bestTree x = chart.bestTreeWithSpan x 0 (input.length - 1) ∧
    ∀ count, chart.bestTrees x count =
      chart.bestTreesWithSpan x 0 (input.length - 1) count

variable [Scalar K] [OrderedWeights K S] {model other : Model K} {width : Nat}
  {width_pos : 0 < width} {prior : RootPrior K} {input : List Symbol}
  {chart full : Chart S}

attribute [local instance] LawfulWeights.semiring

theorem atMost_of_prunes (hweight : model.ruleWeight = other.ruleWeight)
    (hrules : ∀ rule, Ranked.le 0 (other.weigh rule : S) = true)
    (hprior : ∀ x, Ranked.le 0 (prior.weight x : S) = true)
    (hpolicy : model.policy.Covering) (hother : other.policy.Covering)
    (hprunes : model.policy.Prunes other.policy input) (hinput : input ≠ [])
    (hchart : parseMarginal model width width_pos prior input = .ok chart)
    (hfull : parseMarginal other width width_pos prior input = .ok full) :
    chart.AtMost input.length full := by
  intro quantity hrange
  have hmodel : ∀ rule, Ranked.le 0 (model.weigh rule : S) = true := by
    intro rule
    rw [Model.weigh, hweight]
    exact hrules rule
  refine ⟨_, _, quantity.read_eq_sum hpolicy hinput (.of_zero_le hmodel input) width
      width_pos prior hchart hrange,
    quantity.read_eq_sum hother hinput (.of_zero_le hrules input) width width_pos prior
      hfull hrange, ?_⟩
  rw [List.map_congr_left fun d _ => quantity.weigh_congr hweight d]
  apply sum_le_sum_of_subperm (Quantity.derivations_subperm hpolicy hprunes hinput hrange)
  intro d _
  exact quantity.zero_le_weigh hrules hprior d

theorem treesWithin_of_prunes (hselective : SelectiveWeights K S)
    (hweight : model.ruleWeight = other.ruleWeight)
    (hrules : ∀ rule, Ranked.le 0 (other.weigh rule : S) = true)
    (hpolicy : model.policy.Covering) (hother : other.policy.Covering)
    (hprunes : model.policy.Prunes other.policy input) (hinput : input ≠ [])
    (hchart : parseMarginal model width width_pos prior input = .ok chart)
    (hfull : parseMarginal other width width_pos prior input = .ok full) :
    chart.TreesWithin other input full where
  bestTree := by
    intro x first last hspan hlast
    obtain ⟨best, hread, hnone, hbest⟩ :=
      exists_bestTreeWithSpan hpolicy hinput hchart hspan hlast x
    obtain ⟨others, hreadOthers, hnoneOthers, hothers⟩ :=
      exists_bestTreeWithSpan hother hinput hfull hspan hlast x
    refine ⟨best, others, hread, hreadOthers, ?_⟩
    intro tree htree
    obtain ⟨hspells, hsum⟩ := hbest tree htree
    refine ⟨hspells.of_prunes hweight hprunes hspan hlast, ?_⟩
    have hle := derivationSum_le_of_prunes (S := S) hweight hrules hpolicy hprunes x hspan
      hlast
    cases others with
    | some heavier =>
        refine ⟨heavier, rfl, ?_⟩
        rw [hsum, (hothers heavier rfl).2]
        exact hle
    | none =>
        rw [hnoneOthers.mp rfl] at hle
        have hzero := MaximumWeights.le_antisymm hle (MaximumWeights.zero_le _)
        rw [hnone.mpr hzero] at htree
        cases htree
  bestTrees := by
    intro x first last count hspan hlast count_pos hcount
    have hwidth : chart.beamWidth = width := by
      rw [parseMarginal_eq model width width_pos prior hinput] at hchart
      cases hchart
      rfl
    obtain ⟨trees, hread, htrees⟩ := exists_bestTreesWithSpan hpolicy hinput hchart hspan
      hlast x count_pos (hwidth ▸ hcount)
    refine ⟨trees, hread, ?_⟩
    intro tree htree
    exact (htrees tree htree).of_prunes hweight hprunes hspan hlast
  whole := by
    rw [parseMarginal_eq model width width_pos prior hinput] at hchart
    cases hchart
    intro x
    exact ⟨rfl, fun _ => rfl⟩

/-! ## Leaving binary rules out -/

/-- A chart sums those derivations of a model whose nodes pass a test.  Its weights are
those of the chart of all derivations wherever the ones that fail weigh nothing. -/
structure SumsKept (keep : (first last split : Nat) → BinaryRule → Bool)
    (model : Model K) (prior : RootPrior K) (input : List Symbol)
    (chart full : Chart S) : Prop where
  derives_iff : ∀ x first last d,
    Derives (model.policy.restrict keep) input x first last d ↔
      Derives model.policy input x first last d ∧ d.keeps keep first last = true
  read_eq : ∀ quantity : Quantity, quantity.InRange input.length →
    quantity.read chart = .ok (((quantity.derivations model.policy input).filter fun d =>
      d.keeps keep (quantity.span input.length).1 (quantity.span input.length).2).map
        (quantity.weigh model prior)).sum
  read_eq_full : ∀ quantity : Quantity, quantity.InRange input.length →
    (∀ d ∈ quantity.derivations model.policy input, d.weight model ≠ (0 : S) →
      d.keeps keep (quantity.span input.length).1 (quantity.span input.length).2 =
        true) →
      quantity.read chart = quantity.read full
  bestTree_eq : SelectiveWeights K S → ∀ x first last, first ≤ last →
    last < input.length →
    (∀ d, Derives model.policy input x first last d → d.weight model ≠ (0 : S) →
      d.keeps keep first last = true) → ∃ best others,
        chart.bestTreeWithSpan x first last = .ok best ∧
          full.bestTreeWithSpan x first last = .ok others ∧
          best.map ParseTree.weight = others.map ParseTree.weight

theorem sumsKept_restrict (hrules : ∀ rule, Ranked.le 0 (model.weigh rule : S) = true)
    (hpolicy : model.policy.Covering)
    (keep : (first last split : Nat) → BinaryRule → Bool) (hinput : input ≠ [])
    (hchart : parseMarginal ⟨model.policy.restrict keep, model.ruleWeight⟩ width width_pos
      prior input = .ok chart)
    (hfull : parseMarginal model width width_pos prior input = .ok full) :
    chart.SumsKept keep model prior input full := by
  let pruned : Model K := ⟨model.policy.restrict keep, model.ruleWeight⟩
  have hsame : pruned.ruleWeight = model.ruleWeight := rfl
  have hpruned : pruned.policy.Covering := hpolicy.restrict keep
  have hprunedRules : ∀ rule, Ranked.le 0 (pruned.weigh rule : S) = true := hrules
  have hread : ∀ quantity : Quantity, quantity.InRange input.length →
      quantity.read chart =
        .ok (((quantity.derivations model.policy input).filter fun d =>
          d.keeps keep (quantity.span input.length).1
            (quantity.span input.length).2).map (quantity.weigh model prior)).sum := by
    intro quantity hrange
    have hweigh : quantity.weigh pruned prior =
        (quantity.weigh model prior : Derivation → S) :=
      funext fun d => quantity.weigh_congr hsame d
    rw [quantity.read_eq_sum hpruned hinput (.of_zero_le hprunedRules input) width
      width_pos prior hchart hrange, Quantity.derivations_restrict, hweigh]
  constructor
  · intro x first last d
    exact derives_restrict_iff
  · exact hread
  · intro quantity hrange hkept
    rw [hread quantity hrange, quantity.read_eq_sum hpolicy hinput
      (.of_zero_le hrules input) width width_pos prior hfull hrange]
    congr 1
    apply sum_filter_of_kept
    intro d hd hfail
    apply quantity.weigh_eq_zero
    by_contra hne
    rw [hkept d hd hne] at hfail
    cases hfail
  · intro _ x first last hspan hlast hkept
    obtain ⟨best, hbest, hnone, hweight⟩ :=
      exists_bestTreeWithSpan hpruned hinput hchart hspan hlast x
    obtain ⟨others, hothers, hnoneOthers, hweightOthers⟩ :=
      exists_bestTreeWithSpan hpolicy hinput hfull hspan hlast x
    refine ⟨best, others, hbest, hothers, ?_⟩
    have hsum : derivationSum pruned input x first last = (derivationSum model input x
        first last : S) := derivationSum_restrict hkept
    rw [hsum] at hnone
    cases best with
    | none => rw [hnoneOthers.mpr (hnone.mp rfl)]
    | some tree =>
        cases others with
        | none => exact absurd (hnone.mpr (hnoneOthers.mp rfl)) (by simp)
        | some other =>
            rw [Option.map_some, Option.map_some, (hweight tree rfl).2,
              (hweightOthers other rfl).2, hsum]

/-- Over weights of at least zero, leaving rules out lowers inside weights, marginals,
the partition function and the expectation of every rule.  What trees are found are
trees of all rules, none heavier than the best of those.  Leaving binary rules out where
they fail a test leaves the derivations whose nodes all pass, and changes no weight that
sums nothing else. -/
theorem pruning_approximates_from_below (policy : Policy) (hpolicy : policy.Covering)
    (weight : Rule → K)
    (hweight : ∀ rule, Ranked.le 0 (WeightAlgebra.ofWeight (weight rule) : S) = true)
    (prior : RootPrior K) (hprior : ∀ x, Ranked.le 0 (prior.weight x : S) = true)
    (width : Nat) (width_pos : 0 < width) (input : List Symbol) (hinput : input ≠ []) :
    ∃ full : Chart S,
      parseMarginal ⟨policy, weight⟩ width width_pos prior input = .ok full ∧
        (∀ fewer : Policy, fewer.Covering → fewer.Prunes policy input →
          ∃ chart : Chart S,
            parseMarginal ⟨fewer, weight⟩ width width_pos prior input = .ok chart ∧
              chart.AtMost input.length full ∧
              (SelectiveWeights K S → chart.TreesWithin ⟨policy, weight⟩ input full)) ∧
        ∀ keep, ∃ chart : Chart S,
          parseMarginal ⟨policy.restrict keep, weight⟩ width width_pos prior input =
              .ok chart ∧
            chart.SumsKept keep ⟨policy, weight⟩ prior input full := by
  let model : Model K := ⟨policy, weight⟩
  have hrules : ∀ rule, Ranked.le 0 (model.weigh rule : S) = true := hweight
  have hfull := parseMarginal_eq (S := S) model width width_pos prior hinput
  refine ⟨_, hfull, ?_, ?_⟩
  · intro fewer hfewer hprunes
    let pruned : Model K := ⟨fewer, weight⟩
    have hsame : pruned.ruleWeight = model.ruleWeight := rfl
    have hchart := parseMarginal_eq (S := S) pruned width width_pos prior hinput
    refine ⟨_, hchart, ?_, ?_⟩
    · exact atMost_of_prunes hsame hrules hprior hfewer hpolicy hprunes hinput hchart hfull
    · intro hselective
      exact treesWithin_of_prunes hselective hsame hrules hfewer hpolicy hprunes hinput hchart
        hfull
  · intro keep
    have hchart := parseMarginal_eq (S := S) ⟨policy.restrict keep, weight⟩ width
      width_pos prior hinput
    exact ⟨_, hchart, sumsKept_restrict hrules hpolicy keep hinput hchart hfull⟩

/-- Three words combine in two ways, of which one starts with a single word. -/
theorem pruning_approximates_from_below_three_words :
    (∃ full chart : Chart (SumProduct ℚ),
      parseMarginal
          ⟨Policy.scan [⟨⟨0⟩, ⟨0⟩, ⟨0⟩, none⟩] [⟨⟨0⟩, [⟨1⟩], none⟩], fun _ => 1 / 2⟩ 1
          Nat.one_pos .uniform [⟨1⟩, ⟨1⟩, ⟨1⟩] = .ok full ∧
        parseMarginal
            ⟨(Policy.scan [⟨⟨0⟩, ⟨0⟩, ⟨0⟩, none⟩] [⟨⟨0⟩, [⟨1⟩], none⟩]).restrict
              fun _ _ split _ => split = 0, fun _ => 1 / 2⟩ 1
            Nat.one_pos .uniform [⟨1⟩, ⟨1⟩, ⟨1⟩] = .ok chart ∧
          chart.AtMost 3 full ∧ Quantity.partition.read chart = .ok ⟨1 / 32⟩) ∧
    ∃ full chart : Chart (MaxProduct Nat),
      parseMarginal
          ⟨Policy.scan [⟨⟨0⟩, ⟨0⟩, ⟨0⟩, none⟩] [⟨⟨0⟩, [⟨1⟩], none⟩], fun _ => 2⟩ 1
          Nat.one_pos .uniform [⟨1⟩, ⟨1⟩, ⟨1⟩] = .ok full ∧
        chart.TreesWithin
          ⟨Policy.scan [⟨⟨0⟩, ⟨0⟩, ⟨0⟩, none⟩] [⟨⟨0⟩, [⟨1⟩], none⟩], fun _ => 2⟩
          [⟨1⟩, ⟨1⟩, ⟨1⟩] full := by
  have hlawful : (Policy.scan [⟨⟨0⟩, ⟨0⟩, ⟨0⟩, none⟩] [⟨⟨0⟩, [⟨1⟩], none⟩]).Lawful :=
    Policy.scan_lawful (by decide) (by decide)
  have hhalf : (0 : ℚ) ≤ 1 / 2 := by decide +kernel
  have hone : (0 : ℚ) ≤ 1 := by decide +kernel
  constructor
  · obtain ⟨full, hfull, hfewer, hkeep⟩ := pruning_approximates_from_below
      (S := SumProduct ℚ) _ hlawful.covering (fun _ => 1 / 2)
      (fun _ => decide_eq_true hhalf) .uniform (fun _ => decide_eq_true hone) 1
      Nat.one_pos [⟨1⟩, ⟨1⟩, ⟨1⟩] (by decide)
    obtain ⟨chart, hchart, hatMost, _⟩ := hfewer _
      (hlawful.covering.restrict fun _ _ split _ => split = 0) (Policy.restrict_prunes _ _ _)
    obtain ⟨same, hsame, hkept⟩ := hkeep fun _ _ split _ => split = 0
    obtain rfl := Except.ok.inj (hchart.symm.trans hsame)
    refine ⟨full, chart, hfull, hchart, hatMost, ?_⟩
    rw [hkept.read_eq .partition trivial]
    exact congrArg Except.ok (SumProduct.ext_value (by decide +kernel))
  · obtain ⟨full, hfull, hfewer, _⟩ := pruning_approximates_from_below
      (S := MaxProduct Nat) _ hlawful.covering (fun _ => 2) (fun _ => rfl) .uniform
      (fun _ => rfl) 1 Nat.one_pos [⟨1⟩, ⟨1⟩, ⟨1⟩] (by decide)
    obtain ⟨chart, _, _, htrees⟩ := hfewer _
      (hlawful.covering.restrict fun _ _ split _ => split = 0) (Policy.restrict_prunes _ _ _)
    exact ⟨full, chart, hfull, htrees inferInstance⟩

end Chart

end WeightedParsing
