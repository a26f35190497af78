import WeightedParsing.Proofs.Beam.Spelling
import WeightedParsing.Proofs.Chart.BestTree
import WeightedParsing.Proofs.Chart.Requests
import WeightedParsing.Proofs.Chart.RootedTrees
import WeightedParsing.Proofs.Chart.Spelling
import WeightedParsing.Proofs.Weight.Logarithm

/-!
# Rescoring trees

The probability of a tree can be computed from scratch, by looking up the rules that are
read off its labels and multiplying in the weight of its root under a prior.  Whichever way
a tree was found, this comes to the weight that it was found with: the rules are those that
built it, and a prior stands at the root, once.
-/

namespace WeightedParsing

variable {K S : Type} [WeightAlgebra K S]

/-! ## The prior restricted to candidates -/

namespace OrderedTable

variable {κ : Type} [DecidableEq κ]

theorem get?_accumulate_of_ne (table : OrderedTable κ S) {entry : κ × S} {key : κ}
    (hne : entry.1 ≠ key) : (table.accumulate entry).get? key = table.get? key := by
  unfold accumulate
  split
  · rfl
  · exact get?_update_of_ne table (Ne.symm hne) _

theorem get?_foldl_accumulate_of_not_mem {entries : List (κ × S)} {key : κ}
    (hkey : key ∉ entries.map Prod.fst) (table : OrderedTable κ S) :
    (entries.foldl accumulate table).get? key = table.get? key := by
  induction entries generalizing table with
  | nil => rfl
  | cons entry rest ih =>
      rw [List.map_cons, List.mem_cons, not_or] at hkey
      rw [List.foldl_cons, ih hkey.2, get?_accumulate_of_ne table (Ne.symm hkey.1)]

/-- A key that comes once is given its own weight, added to zero. -/
theorem eq_of_get?_foldl_accumulate {keys : List κ} (hnodup : keys.Nodup) (f : κ → S)
    {table : OrderedTable κ S} {key : κ} (hfresh : table.get? key = none) {weight : S}
    (hget : ((keys.map fun k => (k, f k)).foldl accumulate table).get? key = some weight) :
    weight = 0 + f key := by
  induction keys generalizing table with
  | nil =>
      rw [List.map_nil, List.foldl_nil, hfresh] at hget
      contradiction
  | cons k rest ih =>
      rw [List.nodup_cons] at hnodup
      rw [List.map_cons, List.foldl_cons] at hget
      by_cases hk : k = key
      · subst hk
        rw [get?_foldl_accumulate_of_not_mem (by simpa using hnodup.1), accumulate] at hget
        split at hget
        · rw [hfresh] at hget
          contradiction
        · rw [get?_update_self, hfresh] at hget
          exact (Option.some.inj hget).symm
      · refine ih hnodup.2 ?_ hget
        rw [get?_accumulate_of_ne table hk, hfresh]

end OrderedTable

theorem RootPrior.eq_of_mem_restrictTo [Scalar K] {prior : RootPrior K}
    {candidates : List Symbol} (hnodup : candidates.Nodup) {root : Symbol} {weight : S}
    (h : (root, weight) ∈ (prior.restrictTo candidates).entries) :
    weight = 0 + prior.weight root := by
  apply OrderedTable.eq_of_get?_foldl_accumulate hnodup prior.weight
    (OrderedTable.get?_empty root)
  have hget := OrderedTable.get?_of_mem h
  rw [restrictTo, SymbolWeights.ofList, SymbolWeights.table_combineAll] at hget
  exact hget

section Rescoring

variable [Scalar K] [ExactProducts K S] {model : Model K} {input : List Symbol}

/-- A weight that is added to zero and multiplied in is the weight itself, if the product is
not zero. -/
theorem ExactProducts.zero_add_eq {a b : S}
    (hproduct : ¬WeightAlgebra.isZero (a * (0 + b)) = true) : 0 + b = b := by
  rcases ExactProducts.zero_add b with h | h
  · exact h
  · rw [h] at hproduct
    exact absurd (ExactProducts.isZero_mul_zero a) hproduct

namespace Chart

/-- Every tree that the chart gives out is rescored to its own probability, apart from the
weight of the root under a prior that is not in the tree. -/
structure RescoresTrees (chart : Chart S) (model : Model K) : Prop where
  bestTree : ∀ x first last tree, chart.bestTreeWithSpan x first last = .ok (some tree) →
    ∀ prior : RootPrior K, model.treeProbability prior tree =
      tree.probability * WeightAlgebra.toWeight (prior.weight tree.root : S)
  bestTrees : ∀ x first last count trees,
    chart.bestTreesWithSpan x first last count = .ok trees → ∀ tree ∈ trees,
      ∀ prior : RootPrior K, model.treeProbability prior tree =
        tree.probability * WeightAlgebra.toWeight (prior.weight tree.root : S)
  bestTreesForPrior : ∀ (prior : RootPrior K) candidates count trees, candidates.Nodup →
    chart.bestTreesForPrior (prior.restrictTo candidates) count = .ok trees →
      ∀ tree ∈ trees, model.treeProbability prior tree = tree.probability

theorem FilledFrom.rescoresTrees (hmodel : model.IsRead S) {chart : Chart S}
    (hchart : chart.FilledFrom model input) (hinput : input ≠ []) :
    chart.RescoresTrees model := by
  constructor
  · intro x first last tree hread prior
    obtain ⟨hselective, _, hspan, hlast⟩ :=
      (chart.isOk_bestTreeWithSpan_iff x first last).mp (by rw [hread]; rfl)
    rw [bestTreeWithSpan_eq hchart.insidePass_eq hselective hspan hlast] at hread
    rw [← hchart.length_eq] at hlast
    have hspells := InsidePass.spells_bestTree model _ _ input hspan hlast
      (Except.ok.inj hread)
    exact hspells.treeProbability_eq hmodel prior
  · intro x first last count trees hread tree htree prior
    obtain ⟨hselective, _, ⟨hcount, hwidth⟩, hspan, hlast⟩ :=
      (chart.isOk_bestTreesWithSpan_iff x first last count).mp (by rw [hread]; rfl)
    rw [bestTreesWithSpan_eq hchart.insidePass_eq hselective hcount hwidth hspan hlast]
      at hread
    obtain rfl := Except.ok.inj hread
    rw [← hchart.length_eq] at hlast
    have hspells := InsidePass.spells_of_mem_bestTrees model _ _ input hcount hspan hlast
      htree
    exact hspells.treeProbability_eq hmodel prior
  · intro prior candidates count trees hnodup hread tree htree
    obtain ⟨hselective, _, hcount, hwidth⟩ :=
      (chart.isOk_bestTreesForPrior_iff _ count).mp (by rw [hread]; rfl)
    rw [bestTreesForPrior_eq chart hchart.insidePass_eq hselective hcount hwidth] at hread
    obtain rfl := Except.ok.inj hread
    obtain ⟨part, factor, hspells, hroot, rfl, hweight⟩ :=
      InsidePass.exists_of_mem_bestTreesForPrior model _ _ input hcount hinput htree
    -- The table of roots holds what the prior says added to zero, which is no other weight
    -- unless it is zero, and then the tree was left out.
    obtain rfl := RootPrior.eq_of_mem_restrictTo hnodup hroot
    rw [ParseTree.weight_multiply] at hweight
    rw [ExactProducts.zero_add_eq hweight]
    exact hspells.treeProbability_multiply hmodel prior

end Chart

theorem BeamChart.treeProbability_of_mem_trees (hmodel : model.IsRead S) (beamSize : Nat)
    (beamSize_pos : 0 < beamSize) (input : List Symbol) (prior : RootPrior K) :
    ∀ tree ∈ (run model beamSize beamSize_pos input : BeamChart S).trees prior,
      model.treeProbability prior tree = tree.probability := by
  intro tree htree
  obtain ⟨part, hspells, rfl⟩ := exists_of_mem_trees model beamSize beamSize_pos input htree
  exact hspells.treeProbability_multiply hmodel prior

/-- Looking up the rules of a tree anew reproduces its weight, whether a chart or a beam
search found it. -/
theorem rescoring_reproduces_weight (hmodel : model.IsRead S) (input : List Symbol) :
    (∀ (chart filled : Chart S), chart.fillInside model input = .ok filled →
      filled.RescoresTrees model ∧
        ∀ (later : Model K) (prior : RootPrior K) (full : Chart S),
          filled.fillOutside later prior = .ok full → full.RescoresTrees model) ∧
      ∀ (beamSize : Nat) (beamSize_pos : 0 < beamSize) (prior : RootPrior K),
        ∀ tree ∈ (BeamChart.run model beamSize beamSize_pos input : BeamChart S).trees prior,
          model.treeProbability prior tree = tree.probability := by
  constructor
  · intro chart filled hfill
    obtain ⟨_, hinput, _⟩ := (chart.fillInside_eq_ok_iff model input filled).mp hfill
    have hfilled := Chart.filledFrom_of_fillInside hfill
    constructor
    · exact hfilled.rescoresTrees hmodel hinput
    · intro later prior full hfull
      exact (hfilled.fillOutside hfull).rescoresTrees hmodel hinput
  · intro beamSize beamSize_pos prior
    exact BeamChart.treeProbability_of_mem_trees hmodel beamSize beamSize_pos input prior

end Rescoring

/-- The best tree of three words weighs five, and three times as much under a prior: that
factor is in a tree for the prior, and not in the best tree of the root. -/
theorem rescoring_reproduces_weight_three_words :
    ∃ (chart : Chart (MaxProduct Nat)) (tree rooted held : ParseTree (MaxProduct Nat))
        (prior : RootPrior Nat),
      Chart.parseInside Chart.compoundModel 2 Nat.two_pos [⟨1⟩, ⟨1⟩, ⟨1⟩] = .ok chart ∧
        (chart.bestTreeWithSpan ⟨0⟩ 0 2 = .ok (some tree) ∧ tree.probability = 5 ∧
          Chart.compoundModel.treeProbability prior tree = 15) ∧
        (chart.bestTreesForPrior (prior.restrictTo [⟨7⟩, ⟨0⟩]) 1 = .ok [rooted] ∧
          Chart.compoundModel.treeProbability prior rooted = 15) ∧
        held ∈ (BeamChart.run Chart.compoundModel 2 Nat.two_pos [⟨1⟩, ⟨1⟩, ⟨1⟩]).trees
            prior ∧
          Chart.compoundModel.treeProbability prior held = 15 := by
  let pass : InsidePass (MaxProduct Nat) :=
    .run Chart.compoundModel 2 Nat.two_pos [⟨1⟩, ⟨1⟩, ⟨1⟩]
  let chart : Chart (MaxProduct Nat) := ⟨3, 2, Nat.two_pos, .insideDone pass⟩
  have hfill : Chart.fillInside (.blank 3 2 Nat.two_pos) Chart.compoundModel
      [⟨1⟩, ⟨1⟩, ⟨1⟩] = .ok chart := rfl
  obtain ⟨hcharts, hbeams⟩ := @rescoring_reproduces_weight Nat (MaxProduct Nat) _ _ _
    Chart.compoundModel (fun _ => rfl) [⟨1⟩, ⟨1⟩, ⟨1⟩]
  obtain ⟨hscored, _⟩ := hcharts _ chart hfill
  have hbest : (pass.bestTree ⟨0⟩ 0 2).map (fun tree => (tree.root, tree.probability)) =
      some (⟨0⟩, 5) := by
    decide +kernel
  have hrooted : (pass.bestTreesForPrior 1 Nat.one_pos
      ((RootPrior.weighted (.ofList [(⟨0⟩, 3)])).restrictTo [⟨7⟩, ⟨0⟩])).map
        ParseTree.probability = [15] := by
    decide +kernel
  have hheld : 15 ∈ ((BeamChart.run Chart.compoundModel 2 Nat.two_pos
      [⟨1⟩, ⟨1⟩, ⟨1⟩] : BeamChart (MaxProduct Nat)).trees
        (.weighted (.ofList [(⟨0⟩, 3)]))).map ParseTree.probability := by
    decide +kernel
  obtain ⟨tree, htree, hvalue⟩ := Option.map_eq_some_iff.mp hbest
  obtain ⟨hroot, hprobability⟩ := Prod.mk.inj hvalue
  obtain ⟨rooted, hone, hrootedValue⟩ := List.map_eq_singleton_iff.mp hrooted
  obtain ⟨held, hmem, hheldValue⟩ := List.mem_map.mp hheld
  have hread : chart.bestTreeWithSpan ⟨0⟩ 0 2 = .ok (some tree) := congrArg Except.ok htree
  have hreadRooted : chart.bestTreesForPrior
      ((RootPrior.weighted (.ofList [(⟨0⟩, 3)])).restrictTo [⟨7⟩, ⟨0⟩]) 1 = .ok [rooted] :=
    congrArg Except.ok hone
  refine ⟨chart, tree, rooted, held, .weighted (.ofList [(⟨0⟩, 3)]), hfill,
    ⟨hread, hprobability, ?_⟩, ⟨hreadRooted, ?_⟩, hmem, ?_⟩
  · rw [hscored.bestTree ⟨0⟩ 0 2 tree hread, hprobability, hroot]
    rfl
  · rw [← hrootedValue]
    exact hscored.bestTreesForPrior _ [⟨7⟩, ⟨0⟩] 1 [rooted] (by decide) hreadRooted rooted
      List.mem_cons_self
  · rw [← hheldValue]
    exact hbeams 2 Nat.two_pos _ held hmem

/-- Weights that are stored as logarithms are read back as well, so that trees of charts and
beams over them are rescored to their own probability. -/
theorem rescoring_of_logarithms {model : Model ℝ} (hmodel : model.Nonneg) {input : List Symbol}
    (hinput : input ≠ []) :
    (∀ chart : Chart RealLogMax, chart.FilledFrom model input → chart.RescoresTrees model) ∧
      ∀ (beamSize : Nat) (beamSize_pos : 0 < beamSize) (prior : RootPrior ℝ),
        ∀ tree ∈ (BeamChart.run model beamSize beamSize_pos input :
            BeamChart RealLogSum).trees prior,
          model.treeProbability prior tree = tree.probability :=
  ⟨fun _ hchart => hchart.rescoresTrees (RealLogMax.isRead hmodel) hinput,
    fun beamSize beamSize_pos prior => BeamChart.treeProbability_of_mem_trees
      (RealLogSum.isRead hmodel) beamSize beamSize_pos input prior⟩

end WeightedParsing
