import WeightedParsing.Proofs.Beam.Image
import WeightedParsing.Proofs.Beam.Soundness
import WeightedParsing.Proofs.Chart.Marginal
import WeightedParsing.Proofs.Weight.Logarithm

/-!
# Charts that agree

Two algebras store the same weights in different ways when a homomorphism leads from the
one to the other.  Whatever is read off a chart over the first is then what is read off
the chart over the second, weight by weight, and if the homomorphism is strictly
increasing also tree by tree and beam by beam.
-/

namespace WeightedParsing

variable {K S T : Type} [WeightAlgebra K S] [WeightAlgebra K T]

namespace Chart

/-- The weights of a finished chart are the images of those of another one. -/
structure WeightsAgree (h : S → T) (length : Nat) (chart : Chart S) (image : Chart T) :
    Prop where
  inside : ∀ first last,
    image.inside first last = (chart.inside first last).map (SymbolWeights.map h)
  outside : ∀ first last,
    image.outside first last = (chart.outside first last).map (SymbolWeights.map h)
  marginal : ∀ first last,
    image.marginal first last = (chart.marginal first last).map (SymbolWeights.map h)
  answers : ∀ first last, first ≤ last → last < length → ∃ inside outside marginal,
    chart.inside first last = .ok inside ∧ chart.outside first last = .ok outside ∧
      chart.marginal first last = .ok marginal
  rootWeights : ∃ root, chart.rootWeights = .ok root ∧
    image.rootWeights = .ok (root.map h)
  partition : ∃ z, chart.partition = .ok z ∧ image.partition = .ok (h z)
  binaryExpectations : ∃ entries, chart.binaryExpectations = .ok entries ∧
    image.binaryExpectations = .ok (entries.map (Prod.map id h))
  terminalExpectations : ∃ entries, chart.terminalExpectations = .ok entries ∧
    image.terminalExpectations = .ok (entries.map (Prod.map id h))

/-- The back-pointers and the best trees of a chart are the images of those of another
one, in the same order. -/
structure TreesAgree (h : S → T) (length : Nat) (chart : Chart S) (image : Chart T) :
    Prop where
  backpointers : ∀ x first last, image.backpointers x first last =
    (chart.backpointers x first last).map (List.map (Backpointer.map h))
  bestTreeWithSpan : ∀ x first last, image.bestTreeWithSpan x first last =
    (chart.bestTreeWithSpan x first last).map (Option.map (ParseTree.map h))
  bestTree : ∀ x,
    image.bestTree x = (chart.bestTree x).map (Option.map (ParseTree.map h))
  bestTreesWithSpan : ∀ x first last count,
    image.bestTreesWithSpan x first last count =
      (chart.bestTreesWithSpan x first last count).map (List.map (ParseTree.map h))
  bestTrees : ∀ x count,
    image.bestTrees x count =
      (chart.bestTrees x count).map (List.map (ParseTree.map h))
  bestTreesForPrior : ∀ (prior : SymbolWeights S) count,
    image.bestTreesForPrior (prior.map h) count =
      (chart.bestTreesForPrior prior count).map (List.map (ParseTree.map h))
  answers : WeightAlgebra.selective S = true → ∀ x first last count, first ≤ last →
    last < length → 0 < count → count ≤ chart.beamWidth → ∃ backs best trees,
      chart.backpointers x first last = .ok backs ∧
        chart.bestTreeWithSpan x first last = .ok best ∧
        chart.bestTreesWithSpan x first last count = .ok trees

end Chart

/-- The beams of a chart are the images of those of another one. -/
structure BeamChart.Agrees [Scalar K] (h : S → T) (length : Nat) (chart : BeamChart S)
    (image : BeamChart T) : Prop where
  entries : ∀ first last, image.entries first last =
    (chart.entries first last).map (List.map (Prod.map (BeamEntry.map h) h))
  isExact : image.isExact = chart.isExact
  tree : ∀ first last position, image.tree first last position =
    (chart.tree first last position).map (Option.map (ParseTree.map h))
  trees : ∀ prior : RootPrior K, prior.Nonneg →
    image.trees prior = (chart.trees prior).map (ParseTree.map h)
  answers : ∀ first last position, first ≤ last → last < length → ∃ entries tree,
    chart.entries first last = .ok entries ∧ chart.tree first last position = .ok tree

/-- A reading that checks its span first maps like its answer. -/
theorem checkSpan_map {α β : Type} {g : α → β} {length first last : Nat} {a : α} {b : β}
    (hanswer : b = g a) :
    (do
      checkSpan length first last
      return b : Except ChartError β) =
      (do
        checkSpan length first last
        return a : Except ChartError α).map g := by
  rw [hanswer]
  cases checkSpan length first last <;> rfl

section Charts

variable {h : S → T} {length width : Nat} {width_pos : 0 < width} {inside : InsidePass S}
  {inside' : InsidePass T} {outside : OutsidePass S} {outside' : OutsidePass T}

theorem entries_filter_mapValues (p : Rule → Bool) (table : OrderedTable Rule S) :
    ((table.mapValues h).entries.filter fun entry => p entry.1) =
      (table.entries.filter fun entry => p entry.1).map (Prod.map id h) := by
  rw [OrderedTable.mapValues, List.filter_map]
  rfl

theorem Chart.weightsAgree_outsideDone
    (hinside : ∀ first last, inside'.inside first last = (inside.inside first last).map h)
    (houtside : outside.IsImage h outside') :
    WeightsAgree h length ⟨length, width, width_pos, .outsideDone inside outside⟩
      ⟨length, width, width_pos, .outsideDone inside' outside'⟩ where
  inside first last := checkSpan_map (hinside first last)
  outside first last := checkSpan_map (houtside.outside first last)
  marginal first last := checkSpan_map (houtside.marginal first last)
  answers first last hspan hlast := ⟨_, _, _, reads_outsideDone hspan hlast⟩
  rootWeights := ⟨_, rfl, congrArg Except.ok houtside.root⟩
  partition := ⟨_, rfl, congrArg Except.ok houtside.partition⟩
  binaryExpectations := by
    refine ⟨_, rfl, ?_⟩
    change Except.ok (binaryEntries outside'.expectations.entries) = _
    rw [houtside.expectations]
    exact congrArg Except.ok (entries_filter_mapValues (fun rule => !rule.isTerminal) _)
  terminalExpectations := by
    refine ⟨_, rfl, ?_⟩
    change Except.ok (terminalEntries outside'.expectations.entries) = _
    rw [houtside.expectations]
    exact congrArg Except.ok (entries_filter_mapValues Rule.isTerminal _)

namespace Chart

/-- Readings that need best derivations are refused in both algebras or in none. -/
theorem requireSelective_map {α β : Type} {g : α → β} (chart : Chart S) (image : Chart T)
    (hselective : WeightAlgebra.selective S = WeightAlgebra.selective T)
    {a : Except ChartError α} {b : Except ChartError β} (hanswer : b = a.map g) :
    (do
      image.requireSelective
      b) =
      (do
        chart.requireSelective
        a).map g := by
  unfold requireSelective
  rw [← hselective]
  split
  · exact hanswer
  · rfl

theorem requireCount_map {α β : Type} {g : α → β} {chart : Chart S} {image : Chart T}
    {count : Nat} (hwidth : image.beamWidth = chart.beamWidth)
    {a : PLift (0 < count) → Except ChartError α}
    {b : PLift (0 < count) → Except ChartError β}
    (hanswer : ∀ count_pos, b count_pos = (a count_pos).map g) :
    (do
      let count_pos ← image.requireCount count
      b count_pos) =
      (do
        let count_pos ← chart.requireCount count
        a count_pos).map g := by
  unfold requireCount
  by_cases hcount : 0 < count ∧ count ≤ chart.beamWidth
  · rw [dif_pos hcount, dif_pos (hwidth ▸ hcount)]
    exact hanswer ⟨hcount.1⟩
  · rw [dif_neg hcount, dif_neg (hwidth ▸ hcount), hwidth]
    rfl

end Chart

end Charts

variable [Scalar K] [ExactZero K S] [ExactZero K T] {h : S → T} {model : Model K}
  {input : List Symbol}

namespace Chart

variable {width : Nat} {width_pos : 0 < width} {outside : OutsidePass S}
  {outside' : OutsidePass T}

theorem treesAgree_outsideDone (hom : WeightHom h) (hembeds : Ranked.Embeds h)
    (hmodel : model.Nonneg) :
    TreesAgree h input.length
      ⟨input.length, width, width_pos, .outsideDone (.run model width width_pos input)
        outside⟩
      ⟨input.length, width, width_pos, .outsideDone (.run model width width_pos input)
        outside'⟩ where
  backpointers x first last := requireSelective_map _ _ hom.selective_eq
    (checkSpan_map (InsidePass.sortedBackpointers_run_map hom hembeds hmodel x first last))
  bestTreeWithSpan x first last := requireSelective_map _ _ hom.selective_eq
    (checkSpan_map (InsidePass.bestTree_run_map hom hembeds hmodel x first last))
  bestTree x := requireSelective_map _ _ hom.selective_eq
    (checkSpan_map (InsidePass.bestTree_run_map hom hembeds hmodel x _ _))
  bestTreesWithSpan x first last count := requireSelective_map _ _ hom.selective_eq
    (requireCount_map rfl fun count_pos => checkSpan_map
      (InsidePass.bestTrees_run_map hom hembeds hmodel count_pos.down x first last))
  bestTrees x count := requireSelective_map _ _ hom.selective_eq
    (requireCount_map rfl fun count_pos => checkSpan_map
      (InsidePass.bestTrees_run_map hom hembeds hmodel count_pos.down x _ _))
  bestTreesForPrior prior count := requireSelective_map _ _ hom.selective_eq
    (requireCount_map rfl fun count_pos => congrArg Except.ok
      (InsidePass.bestTreesForPrior_run_map hom hembeds hmodel count_pos.down prior))
  answers := by
    intro hselective x first last count hspan hlast count_pos hcount
    exact ⟨_, _, _, backpointers_eq rfl hselective hspan hlast x,
      bestTreeWithSpan_eq rfl hselective hspan hlast x,
      bestTreesWithSpan_eq rfl hselective count_pos hcount hspan hlast x⟩

end Chart

theorem BeamChart.agrees_run (hom : WeightHom h) (hembeds : Ranked.Embeds h)
    (hmodel : model.Nonneg) (beamSize : Nat) (beamSize_pos : 0 < beamSize) :
    (run model beamSize beamSize_pos input : BeamChart S).Agrees h input.length
      (run model beamSize beamSize_pos input) where
  entries first last := by
    have hentries : ((run model beamSize beamSize_pos input : BeamChart T).cells.get first
          last).heap.toList =
        ((run model beamSize beamSize_pos input : BeamChart S).cells.get first
          last).heap.toList.map (Prod.map (BeamEntry.map h) h) := by
      rw [get_cells_run_map hom hembeds hmodel, BeamCell.map, BoundedHeap.toList_map]
    change (do checkSpan input.length first last; pure _) = _
    exact checkSpan_map hentries
  isExact := isExact_run_map hom hembeds hmodel
  tree first last position := by
    change (do checkSpan input.length first last; pure _) = _
    exact checkSpan_map (treeAt_run_map hom hembeds hmodel first last position)
  trees _ hprior := trees_run_map hom hembeds hmodel hprior
  answers _ _ position hspan hlast :=
    ⟨_, _, entries_eq hspan hlast, tree_eq hspan hlast position⟩

/-- A homomorphism of weights takes every weight of a chart to the weight of the chart
over the other algebra, with the same entries.  A strictly increasing one also takes
back-pointers, best trees and beams to those of the other algebra: the same rules, splits
and spans in the same order. -/
theorem Chart.parses_agree_under_homomorphism (hom : WeightHom h) (model : Model K)
    (hmodel : model.Nonneg) (prior : RootPrior K) (hprior : prior.Nonneg) (width : Nat)
    (width_pos : 0 < width) (input : List Symbol) (hinput : input ≠ []) :
    ∃ (chart : Chart S) (image : Chart T),
      parseMarginal model width width_pos prior input = .ok chart ∧
        parseMarginal model width width_pos prior input = .ok image ∧
        chart.WeightsAgree h input.length image ∧
        (Ranked.StrictlyIncreasing h →
          chart.TreesAgree h input.length image ∧
            ∀ beamSize beamSize_pos,
              (BeamChart.run model beamSize beamSize_pos input : BeamChart S).Agrees h
                input.length
                (BeamChart.run model beamSize beamSize_pos input : BeamChart T)) := by
  have hinside := InsidePass.inside_run_map hom hmodel width width_pos input
  have hsize : (InsidePass.run model width width_pos input : InsidePass T).cells.size =
      (InsidePass.run model width width_pos input : InsidePass S).cells.size := by
    rw [InsidePass.size_cells_run, InsidePass.size_cells_run]
  refine ⟨_, _, parseMarginal_eq model width width_pos prior hinput,
    parseMarginal_eq model width width_pos prior hinput, ?_, ?_⟩
  · exact weightsAgree_outsideDone hinside
      (OutsidePass.isImage_run hom hmodel hprior rfl hsize hinside)
  · intro hincreasing
    exact ⟨treesAgree_outsideDone hom hincreasing.embeds hmodel,
      BeamChart.agrees_run hom hincreasing.embeds hmodel⟩

/-- Logarithms of real weights and the weights themselves, over three words that combine
in two ways. -/
theorem Chart.parses_agree_under_homomorphism_logarithms :
    (∃ (chart : Chart RealLogSum) (image : Chart (SumProduct ℝ)) (z : RealLogSum),
      parseMarginal
          ⟨Policy.scan [⟨⟨0⟩, ⟨0⟩, ⟨0⟩, none⟩] [⟨⟨0⟩, [⟨1⟩], none⟩], fun _ => 2⁻¹⟩ 1
          Nat.one_pos .uniform [⟨1⟩, ⟨1⟩, ⟨1⟩] = .ok chart ∧
        chart.WeightsAgree RealLogSum.exp 3 image ∧
        chart.TreesAgree RealLogSum.exp 3 image ∧
        chart.partition = .ok z ∧ z.exp = ⟨16⁻¹⟩) ∧
    ∃ (chart : Chart RealLogMax) (image : Chart (MaxProduct ℝ)),
      chart.WeightsAgree RealLogMax.exp 3 image ∧
        chart.TreesAgree RealLogMax.exp 3 image ∧
        ∀ beamSize beamSize_pos,
          (BeamChart.run
            ⟨Policy.scan [⟨⟨0⟩, ⟨0⟩, ⟨0⟩, none⟩] [⟨⟨0⟩, [⟨1⟩], none⟩], fun _ => 2⁻¹⟩
            beamSize beamSize_pos [⟨1⟩, ⟨1⟩, ⟨1⟩]).Agrees RealLogMax.exp 3
          (BeamChart.run
            ⟨Policy.scan [⟨⟨0⟩, ⟨0⟩, ⟨0⟩, none⟩] [⟨⟨0⟩, [⟨1⟩], none⟩], fun _ => 2⁻¹⟩
            beamSize beamSize_pos [⟨1⟩, ⟨1⟩, ⟨1⟩]) := by
  let model : Model ℝ :=
    ⟨Policy.scan [⟨⟨0⟩, ⟨0⟩, ⟨0⟩, none⟩] [⟨⟨0⟩, [⟨1⟩], none⟩], fun _ => 2⁻¹⟩
  have hhalf : (0 : ℝ) ≤ 2⁻¹ := by norm_num
  have hmodel : model.Nonneg := fun _ => decide_eq_true hhalf
  have hpolicy : model.policy.Lawful := Policy.scan_lawful (by decide) (by decide)
  have hinput : ([⟨1⟩, ⟨1⟩, ⟨1⟩] : List Symbol) ≠ [] := by decide
  constructor
  · obtain ⟨chart, image, hchart, himage, hweights, htrees⟩ :=
      parses_agree_under_homomorphism RealLogSum.weightHom_exp model hmodel .uniform trivial
        1 Nat.one_pos [⟨1⟩, ⟨1⟩, ⟨1⟩] hinput
    obtain ⟨z, hz, hexp⟩ := hweights.partition
    refine ⟨chart, image, z, hchart, hweights,
      (htrees RealLogSum.strictlyIncreasing_exp).1, hz, ?_⟩
    have hpass := InsidePass.complete_run (S := SumProduct ℝ) model hpolicy 1 Nat.one_pos
      hinput
    have hsum := OutsidePass.partition_run hpass .uniform
    have hboth : completeDerivations model.policy [⟨1⟩, ⟨1⟩, ⟨1⟩] =
        [.node 0 ⟨⟨0⟩, ⟨0⟩, ⟨0⟩, none⟩ (.leaf ⟨⟨0⟩, [⟨1⟩], none⟩)
          (.node 0 ⟨⟨0⟩, ⟨0⟩, ⟨0⟩, none⟩ (.leaf ⟨⟨0⟩, [⟨1⟩], none⟩)
            (.leaf ⟨⟨0⟩, [⟨1⟩], none⟩)),
        .node 1 ⟨⟨0⟩, ⟨0⟩, ⟨0⟩, none⟩
          (.node 0 ⟨⟨0⟩, ⟨0⟩, ⟨0⟩, none⟩ (.leaf ⟨⟨0⟩, [⟨1⟩], none⟩)
            (.leaf ⟨⟨0⟩, [⟨1⟩], none⟩)) (.leaf ⟨⟨0⟩, [⟨1⟩], none⟩)] := by
      decide +kernel
    have hvalue : completeSum (SumProduct ℝ) model .uniform [⟨1⟩, ⟨1⟩, ⟨1⟩] =
        ⟨16⁻¹⟩ := by
      rw [completeSum, hboth]
      apply SumProduct.ext_value
      change (1 : ℝ) * (2⁻¹ * 2⁻¹ * (2⁻¹ * 2⁻¹ * 2⁻¹)) +
        (1 * (2⁻¹ * (2⁻¹ * 2⁻¹ * 2⁻¹) * 2⁻¹) + 0) = 16⁻¹
      norm_num
    rw [parseMarginal_eq model 1 Nat.one_pos .uniform hinput] at himage
    cases himage
    exact (Except.ok.inj hexp).symm.trans (hsum.trans hvalue)
  · obtain ⟨chart, image, _, _, hweights, htrees⟩ :=
      parses_agree_under_homomorphism RealLogMax.weightHom_exp model hmodel .uniform trivial
        1 Nat.one_pos [⟨1⟩, ⟨1⟩, ⟨1⟩] hinput
    exact ⟨chart, image, hweights, htrees RealLogMax.strictlyIncreasing_exp⟩

end WeightedParsing
