import WeightedParsing.Proofs.Beam.Held
import WeightedParsing.Proofs.Chart.Extraction

/-!
# The trees of a beam

The trees of a chart spell out the derivations that the beam of the whole input holds,
each multiplied by the weight of its root under a prior, in order of these products.  The
heaviest product that any derivation reaches can also be read off the inside weights of an
exact chart.
-/

namespace WeightedParsing

variable {K S : Type} [WeightAlgebra K S] [Scalar K]

namespace Derivation

def weightUnder (model : Model K) (prior : RootPrior K) (d : Derivation) : S :=
  d.weight model * prior.weight d.root

def treeUnder (model : Model K) (input : List Symbol) (prior : RootPrior K)
    (d : Derivation) : ParseTree S :=
  (d.tree model 0 (input.length - 1)).multiply (prior.weight d.root)

def hasWeightUnder (S : Type) [WeightAlgebra K S] (model : Model K) (prior : RootPrior K)
    (d : Derivation) : Bool :=
  !WeightAlgebra.isZero (d.weightUnder model prior : S)

@[simp] theorem weight_treeUnder (model : Model K) (input : List Symbol)
    (prior : RootPrior K) (d : Derivation) :
    (d.treeUnder model input prior : ParseTree S).weight = d.weightUnder model prior := by
  rw [treeUnder, ParseTree.weight_multiply, weight_tree, weightUnder]

theorem hasWeightUnder_iff [LawfulWeights K S] {model : Model K} {prior : RootPrior K}
    {d : Derivation} :
    d.hasWeightUnder S model prior = true ↔ (d.weightUnder model prior : S) ≠ 0 := by
  rw [hasWeightUnder, Bool.not_eq_true', ← Bool.not_eq_true, isZero_eq_true_iff]

end Derivation

theorem nodup_map_treeUnder {model : Model K} {input : List Symbol} (prior : RootPrior K)
    {entries : List Derivation} (hnodup : entries.Nodup)
    (h : ∀ d ∈ entries, d ∈ completeDerivations model.policy input) :
    (entries.map (Derivation.treeUnder (S := S) model input prior)).Nodup := by
  have hread : ∀ d ∈ entries,
      (d.treeUnder model input prior : ParseTree S).derivation = d := by
    intro d hd
    rw [Derivation.treeUnder, ParseTree.derivation_multiply]
    exact (mem_completeDerivations.mp (h d hd)).derivation_tree model
  apply hnodup.map_on
  intro d hd d' hd' heq
  rw [← hread d hd, heq, hread d' hd']

namespace BeamChart

variable {chart : BeamChart S} {model : Model K} {input : List Symbol}
  {derivations : List Derivation}

theorem trees_eq_nil (hlength : chart.length = 0) (prior : RootPrior K) :
    chart.trees prior = [] :=
  if_pos hlength

theorem exists_trees_eq [TotallyRanked S] (hlength : chart.length = input.length)
    (hinput : input ≠ [])
    (hspells : chart.Spells model input 0 (input.length - 1) derivations)
    (prior : RootPrior K) :
    ∃ kept, chart.trees prior = kept.map (Derivation.treeUnder model input prior) ∧
      kept.Perm (derivations.filter (Derivation.hasWeightUnder S model prior)) ∧
      Ranked.Descending (Derivation.weightUnder (S := S) model prior) kept := by
  have hne : ¬chart.length = 0 := by
    rw [hlength]
    exact fun h => hinput (List.length_eq_zero_iff.mp h)
  have htrees : chart.trees prior = Ranked.sortDescending ParseTree.weight
      ((derivations.filter (Derivation.hasWeightUnder S model prior)).map
        (Derivation.treeUnder model input prior)) := by
    have hunder : (derivations.map fun d => d.tree model 0 (input.length - 1)).map
          (fun tree : ParseTree S => tree.multiply (prior.weight tree.root)) =
        derivations.map (Derivation.treeUnder model input prior) := by
      rw [List.map_map]
      apply List.map_congr_left
      intro d _
      simp [Derivation.treeUnder]
    rw [trees, if_neg hne]
    dsimp only
    rw [hlength, hspells.trees_eq, hunder, List.filter_map]
    simp only [Function.comp_def, Derivation.weight_treeUnder]
    rfl
  have hsorted := Ranked.descending_sortDescending ParseTree.weight
    ((derivations.filter (Derivation.hasWeightUnder S model prior)).map
      (Derivation.treeUnder (S := S) model input prior))
  rw [← htrees] at hsorted
  have hperm := Ranked.sortDescending_perm ParseTree.weight
    ((derivations.filter (Derivation.hasWeightUnder S model prior)).map
      (Derivation.treeUnder (S := S) model input prior))
  rw [← htrees] at hperm
  obtain ⟨kept, hkept, hsame⟩ := exists_eq_map_of_perm hperm
  rw [hkept] at hsorted
  refine ⟨kept, hkept, hsame, ?_⟩
  simpa [Ranked.Descending, List.pairwise_map] using hsorted

theorem descending_trees [TotallyRanked S] {prior : RootPrior K}
    (htrees : chart.trees prior = derivations.map (Derivation.treeUnder model input prior))
    (hsorted : Ranked.Descending (Derivation.weightUnder (S := S) model prior)
      derivations) :
    Ranked.Descending ParseTree.weight (chart.trees prior) := by
  rw [htrees, Ranked.Descending, List.pairwise_map]
  simpa [Ranked.Descending] using hsorted

/-- No list of trees is refused where weights are in a total order. -/
theorem checkedTrees_eq [TotallyRanked S] (prior : RootPrior K) :
    chart.checkedTrees prior = .ok (chart.trees prior) :=
  if_pos (Ranked.sortable _ _)

end BeamChart

/-! ## The exact optimum -/

/-- The largest product of an inside weight with the weight of its symbol as a root. -/
structure IsOptimum (inside : SymbolWeights S) (prior : RootPrior K) (best : S) :
    Prop where
  le : ∀ x, Ranked.le (inside.get x * prior.weight x) best = true
  attained : ∃ x, inside.get x * prior.weight x = best

section Optimum

variable [SelectiveWeights K S] {model : Model K} {input : List Symbol}
  {inside : SymbolWeights S}

theorem isOptimum_of {prior : RootPrior K} {best : S}
    (hinside : ∀ x, inside.get x = derivationSum model input x 0 (input.length - 1))
    (hle : ∀ d ∈ completeDerivations model.policy input,
      Ranked.le (d.weightUnder model prior) best = true)
    (hattained : best = 0 ∨
      ∃ d ∈ completeDerivations model.policy input, d.weightUnder model prior = best) :
    IsOptimum inside prior best := by
  have hbound : ∀ x, Ranked.le (inside.get x * prior.weight x) best = true := by
    intro x
    rw [hinside]
    by_cases hzero : (derivationSum model input x 0 (input.length - 1) : S) = 0
    · rw [hzero, LawfulWeights.zero_mul]
      exact MaximumWeights.zero_le best
    · obtain ⟨d, hd, hweight⟩ := exists_eq_sum hzero
      obtain ⟨hcomplete, rfl⟩ := mem_derivations_iff_root.mp hd
      have hbest := hle d hcomplete
      rw [Derivation.weightUnder, hweight] at hbest
      exact hbest
  refine ⟨hbound, ?_⟩
  rcases hattained with rfl | ⟨d, hd, rfl⟩
  · -- Every product is zero, whatever the symbol.
    exact ⟨⟨0⟩, MaximumWeights.le_antisymm (hbound _) (MaximumWeights.zero_le _)⟩
  · refine ⟨d.root, MaximumWeights.le_antisymm (hbound d.root) ?_⟩
    rw [hinside]
    apply SelectiveWeights.mul_le_mul_right
    exact le_sum_of_mem (Derivation.weight model) (mem_derivations_iff_root.mpr ⟨hd, rfl⟩)

theorem exists_isOptimum (prior : RootPrior K)
    (hinside : ∀ x, inside.get x = derivationSum model input x 0 (input.length - 1)) :
    ∃ best, IsOptimum inside prior best ∧
      ∀ d ∈ completeDerivations model.policy input,
        Ranked.le (d.weightUnder model prior) best = true := by
  have hle : ∀ d ∈ completeDerivations model.policy input,
      Ranked.le (d.weightUnder model prior : S)
        ((completeDerivations model.policy input).map
          (Derivation.weightUnder model prior)).sum = true :=
    fun d hd => le_sum_of_mem (Derivation.weightUnder model prior) hd
  refine ⟨_, isOptimum_of hinside hle ?_, hle⟩
  rw [or_iff_not_imp_left]
  exact exists_eq_sum

end Optimum

end WeightedParsing
