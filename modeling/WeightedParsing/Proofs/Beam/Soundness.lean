import WeightedParsing.Proofs.Beam.Trees
import WeightedParsing.Proofs.Chart.BestTree

/-!
# Beams hold parses

Whatever a beam had no room for, what it does hold is sound.  Every position leads to a
tree of its own that parses the span and weighs what the entry there says, and the trees
of a chart are parses of the whole input that weigh no more than an exact chart allows.
-/

namespace WeightedParsing

variable {K S : Type} [WeightAlgebra K S]

namespace BeamChart

/-- The beam of a span has these entries.  Each leads to a parse of the span as the root
of the entry and of its weight, and no two lead to the same tree. -/
structure IsSoundAt (chart : BeamChart S) (model : Model K) (input : List Symbol)
    (first last : Nat) (entries : List (BeamEntry S × S)) : Prop where
  read : chart.entries first last = .ok entries
  length_le : entries.length ≤ chart.beamSize
  tree_spec : ∀ position entry weight, entries[position]? = some (entry, weight) →
    ∃ tree, chart.tree first last position = .ok (some tree) ∧
      chart.Rebuilds first last position tree ∧
      IsParse model input entry.root first last tree ∧ tree.weight = weight
  tree_none : ∀ position, entries.length ≤ position →
    chart.tree first last position = .ok none
  distinct : ∀ i j tree, chart.tree first last i = .ok (some tree) →
    chart.tree first last j = .ok (some tree) → i = j

/-- The trees of a chart are derivations of the whole input, weighted by a prior. -/
structure TreesAreSound [Scalar K] (chart : BeamChart S) (model : Model K)
    (input : List Symbol) (prior : RootPrior K) : Prop where
  length_le : (chart.trees prior).length ≤ chart.beamSize
  of_derivation : ∀ tree ∈ chart.trees prior,
    ∃ d, Derives model.policy input d.root 0 (input.length - 1) d ∧
      tree = (d.tree model 0 (input.length - 1)).multiply (prior.weight d.root) ∧
      tree.weight = d.weight model * prior.weight d.root
  weight_ne_zero : ∀ tree ∈ chart.trees prior, tree.weight ≠ 0
  descending : Ranked.Descending ParseTree.weight (chart.trees prior)

/-! ## One span -/

section Span

variable {chart : BeamChart S} {model : Model K} {input : List Symbol}
  {first last : Nat} {derivations : List Derivation}

theorem entries_eq (hspan : first ≤ last) (hlast : last < chart.length) :
    chart.entries first last = .ok (chart.cells.get first last).heap.toList :=
  Chart.answer_of_le hspan hlast _

theorem tree_eq (hspan : first ≤ last) (hlast : last < chart.length) (position : Nat) :
    chart.tree first last position = .ok (chart.treeAt first last position) :=
  Chart.answer_of_le hspan hlast _

theorem Spells.exists_of_entry (h : chart.Spells model input first last derivations)
    {position : Nat} {entry : BeamEntry S} {weight : S}
    (hentry : (chart.cells.get first last).heap.toList[position]? =
      some (entry, weight)) :
    ∃ d, derivations[position]? = some d ∧ d.root = entry.root ∧
      d.weight model = weight := by
  have hread := congrArg (fun entries => entries[position]?) h.entries_match
  simp only [List.getElem?_map, hentry, Option.map_some] at hread
  obtain ⟨d, hd, heq⟩ := Option.map_eq_some_iff.mp hread.symm
  exact ⟨d, hd, congrArg Prod.fst heq, congrArg Prod.snd heq⟩

theorem treeAt_eq_none {position : Nat}
    (hposition : (chart.cells.get first last).heap.size ≤ position) :
    chart.treeAt first last position = none := by
  have hget : (chart.cells.get first last).heap.get? position = none :=
    Array.getElem?_eq_none hposition
  rw [treeAt, hget]

theorem Spells.exists_of_treeAt (h : chart.Spells model input first last derivations)
    {position : Nat} {tree : ParseTree S}
    (htree : chart.treeAt first last position = some tree) :
    ∃ d, derivations[position]? = some d ∧ tree = d.tree model first last := by
  cases hd : derivations[position]? with
  | none =>
      have hsize : (chart.cells.get first last).heap.size ≤ position := by
        rw [← h.length_eq]
        exact List.getElem?_eq_none_iff.mp hd
      rw [treeAt_eq_none hsize] at htree
      cases htree
  | some d =>
      rw [(h.spellsAt position d hd).treeAt_eq] at htree
      exact ⟨d, rfl, (Option.some.inj htree).symm⟩

theorem Spells.isSoundAt (h : chart.Spells model input first last derivations)
    (hpolicy : model.policy.Lawful) (hlength : chart.length = input.length)
    (hspan : first ≤ last) (hlast : last < input.length)
    (hroom : derivations.length ≤ chart.beamSize) :
    chart.IsSoundAt model input first last
      (chart.cells.get first last).heap.toList := by
  have hlast' : last < chart.length := by omega
  have hsize : (chart.cells.get first last).heap.toList.length =
      (chart.cells.get first last).heap.size := Array.length_toList
  constructor
  · exact entries_eq hspan hlast'
  · rw [hsize, ← h.length_eq]
    exact hroom
  · intro position entry weight hentry
    obtain ⟨d, hd, hroot, hweight⟩ := h.exists_of_entry hentry
    have hderives := h.derives d (List.mem_of_getElem? hd)
    rw [hroot] at hderives
    refine ⟨d.tree model first last, ?_, (h.spellsAt position d hd).rebuilds,
      hderives.isParse hpolicy hspan hlast, ?_⟩
    · rw [tree_eq hspan hlast', (h.spellsAt position d hd).treeAt_eq]
    · rw [Derivation.weight_tree, hweight]
  · intro position hposition
    rw [hsize] at hposition
    rw [tree_eq hspan hlast', treeAt_eq_none hposition]
  · intro i j tree hi hj
    rw [tree_eq hspan hlast'] at hi hj
    obtain ⟨d, hd, rfl⟩ := h.exists_of_treeAt (Except.ok.inj hi)
    obtain ⟨d', hd', hsame⟩ := h.exists_of_treeAt (Except.ok.inj hj)
    have heq := (h.derives d (List.mem_of_getElem? hd)).eq_of_tree_eq model
      (h.derives d' (List.mem_of_getElem? hd')) hsame
    subst heq
    have hlt : i < derivations.length := (List.getElem?_eq_some_iff.mp hd).1
    exact (List.getElem?_inj hlt h.nodup).mp (hd.trans hd'.symm)

end Span

/-! ## Finished charts -/

section Run

variable [TotallyRanked S] (model : Model K) (beamSize : Nat)
  (beamSize_pos : 0 < beamSize) (input : List Symbol)

theorem length_held_run_le (hpolicy : model.policy.Lawful) {first last : Nat}
    (hspan : first ≤ last) (hlast : last < input.length) :
    ((run model beamSize beamSize_pos input : BeamChart S).held first last).length ≤
      beamSize := by
  obtain ⟨_, _, _, hlength, _⟩ := spells_run (S := S) model beamSize beamSize_pos input
    hpolicy hspan hlast
  rw [hlength]
  exact Nat.min_le_left _ _

variable [LawfulWeights K S] [Scalar K]

theorem exists_trees_run_eq (hpolicy : model.policy.Lawful) (hinput : input ≠ [])
    (prior : RootPrior K) :
    ∃ kept, (run model beamSize beamSize_pos input : BeamChart S).trees prior =
        kept.map (Derivation.treeUnder model input prior) ∧
      kept.Perm (((run model beamSize beamSize_pos input : BeamChart S).held 0
        (input.length - 1)).filter (Derivation.hasWeightUnder S model prior)) ∧
      (∀ d ∈ kept, d ∈ completeDerivations model.policy input ∧
        (d.weightUnder model prior : S) ≠ 0) ∧
      Ranked.Descending (Derivation.weightUnder (S := S) model prior) kept := by
  have hpos := List.length_pos_of_ne_nil hinput
  have hspells := (spells_run (S := S) model beamSize beamSize_pos input hpolicy
    (Nat.zero_le (input.length - 1)) (by omega)).1
  obtain ⟨kept, htrees, hperm, hsorted⟩ := exists_trees_eq rfl hinput hspells prior
  refine ⟨kept, htrees, hperm, ?_, hsorted⟩
  intro d hd
  obtain ⟨hheld, hweight⟩ := List.mem_filter.mp (hperm.mem_iff.mp hd)
  exact ⟨mem_completeDerivations.mpr (hspells.derives d hheld),
    Derivation.hasWeightUnder_iff.mp hweight⟩

theorem treesAreSound_run (hpolicy : model.policy.Lawful) (prior : RootPrior K) :
    (run model beamSize beamSize_pos input : BeamChart S).TreesAreSound model input
      prior := by
  by_cases hinput : input = []
  · subst hinput
    have hnil : (run model beamSize beamSize_pos [] : BeamChart S).trees prior = [] :=
      trees_eq_nil rfl prior
    constructor
    · rw [hnil]
      exact Nat.zero_le _
    · simp [hnil]
    · simp [hnil]
    · rw [hnil]
      exact List.Pairwise.nil
  · obtain ⟨kept, htrees, hperm, hkept, hsorted⟩ :=
      exists_trees_run_eq (S := S) model beamSize beamSize_pos input hpolicy hinput prior
    have hpos := List.length_pos_of_ne_nil hinput
    constructor
    · rw [htrees, List.length_map, hperm.length_eq]
      exact Nat.le_trans (List.length_filter_le _ _)
        (length_held_run_le model beamSize beamSize_pos input hpolicy (Nat.zero_le _)
          (by omega))
    · intro tree htree
      rw [htrees] at htree
      obtain ⟨d, hd, rfl⟩ := List.mem_map.mp htree
      exact ⟨d, mem_completeDerivations.mp (hkept d hd).1, rfl, d.weight_treeUnder ..⟩
    · intro tree htree
      rw [htrees] at htree
      obtain ⟨d, hd, rfl⟩ := List.mem_map.mp htree
      rw [Derivation.weight_treeUnder]
      exact (hkept d hd).2
    · exact descending_trees htrees hsorted

/-- What a beam chart holds is sound, whatever it left out. -/
theorem run_is_sound (hpolicy : model.policy.Lawful) :
    (∀ first last, first ≤ last → last < input.length →
      ∃ entries, (run model beamSize beamSize_pos input : BeamChart S).IsSoundAt model
        input first last entries) ∧
    ∀ prior : RootPrior K,
      (run model beamSize beamSize_pos input : BeamChart S).TreesAreSound model input
          prior ∧
        (input ≠ [] → ∀ (_ : SelectiveWeights K S) (width : Nat) (width_pos : 0 < width),
          ∃ (exact : Chart S) (weights : SymbolWeights S) (best : S),
            Chart.parseInside model width width_pos input = .ok exact ∧
              exact.inside 0 (input.length - 1) = .ok weights ∧
              IsOptimum weights prior best ∧
              ∀ tree ∈ (run model beamSize beamSize_pos input : BeamChart S).trees prior,
                Ranked.le tree.weight best = true) := by
  refine ⟨?_, ?_⟩
  · intro first last hspan hlast
    exact ⟨_, (spells_run model beamSize beamSize_pos input hpolicy hspan hlast).1.isSoundAt
      hpolicy rfl hspan hlast
      (length_held_run_le model beamSize beamSize_pos input hpolicy hspan hlast)⟩
  · intro prior
    refine ⟨treesAreSound_run model beamSize beamSize_pos input hpolicy prior, ?_⟩
    intro hinput _ width width_pos
    obtain ⟨exact, weights, hparse, hread, hinside⟩ :=
      Chart.exists_parseInside (S := S) hpolicy width width_pos hinput
    obtain ⟨best, hbest, hle⟩ := exists_isOptimum prior hinside
    refine ⟨exact, weights, best, hparse, hread, hbest, ?_⟩
    intro tree htree
    obtain ⟨kept, htrees, _, hkept, _⟩ :=
      exists_trees_run_eq (S := S) model beamSize beamSize_pos input hpolicy hinput prior
    rw [htrees] at htree
    obtain ⟨d, hd, rfl⟩ := List.mem_map.mp htree
    rw [Derivation.weight_treeUnder]
    exact hle d (hkept d hd).1

end Run

/-- A beam of one tree has no room for most derivations of three words, but the tree that
it keeps is one of theirs. -/
theorem run_is_sound_three_words :
    ∃ (chart : BeamChart (MaxProduct Nat)) (tree : ParseTree (MaxProduct Nat)),
      run Chart.compoundModel 1 Nat.one_pos [⟨1⟩, ⟨1⟩, ⟨1⟩] = chart ∧
        chart.isExact = false ∧
        chart.tree 0 2 0 = .ok (some tree) ∧
        tree.terminals = [⟨1⟩, ⟨1⟩, ⟨1⟩] ∧
        ∀ other ∈ chart.trees .uniform, other.weight ≠ 0 := by
  obtain ⟨hcells, htrees⟩ := run_is_sound (S := MaxProduct Nat) Chart.compoundModel 1
    Nat.one_pos [⟨1⟩, ⟨1⟩, ⟨1⟩] (Policy.scan_lawful (by decide) (by decide))
  obtain ⟨entries, hentries⟩ := hcells 0 2 (by decide) (by decide)
  have hlength : entries.length = 1 := by
    have hread := hentries.read
    rw [entries_eq (by decide) (by decide)] at hread
    rw [← Except.ok.inj hread]
    decide +kernel
  have hentry : entries[0]? = some entries[0] := List.getElem?_eq_getElem (by omega)
  obtain ⟨tree, htree, _, hparse, _⟩ := hentries.tree_spec 0 _ _ hentry
  refine ⟨_, tree, rfl, by decide +kernel, htree, ?_, (htrees .uniform).1.weight_ne_zero⟩
  exact (Option.some.inj hparse.terminals_eq).symm

end BeamChart

end WeightedParsing
