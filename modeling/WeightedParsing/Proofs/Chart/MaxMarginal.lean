import WeightedParsing.Proofs.Chart.RootedTrees

/-!
# Max-marginals

In a selective algebra the marginal of a constituent is the weight of a heaviest complete
derivation that contains it.  It reaches the partition function at the constituents of the
heaviest complete derivations and nowhere else: the tables of the outside pass and the
trees of the back-pointers single out the same constituents.
-/

namespace WeightedParsing

variable {K S : Type} [WeightAlgebra K S]

/-- A subtree of the tree of a derivation spells out a constituent over its own span. -/
theorem Derivation.exists_constituent_of_subtree {model : Model K} {d : Derivation}
    {first last : Nat} {path : List ParseTree.Turn} {part : ParseTree S}
    (hpart : (d.tree model first last).subtree? path = some part) :
    ∃ c ∈ d.constituents first last, part = c.derivation.tree model c.first c.last := by
  induction d generalizing first last path with
  | leaf rule =>
      cases path with
      | nil =>
          exact ⟨_, self_mem_constituents _ first last, (Option.some.inj hpart).symm⟩
      | cons turn path => cases hpart
  | node split rule left right ihLeft ihRight =>
      cases path with
      | nil =>
          exact ⟨_, self_mem_constituents _ first last, (Option.some.inj hpart).symm⟩
      | cons turn path =>
          cases turn with
          | left =>
              obtain ⟨c, hc, heq⟩ := ihLeft hpart
              exact ⟨c, List.mem_cons_of_mem _ (List.mem_append_left _ hc), heq⟩
          | right =>
              obtain ⟨c, hc, heq⟩ := ihRight hpart
              exact ⟨c, List.mem_cons_of_mem _ (List.mem_append_right _ hc), heq⟩

/-- A subtree has the root and the span of a constituent, whatever weighs on the root of
the whole tree. -/
theorem Derivation.exists_constituent_of_subtree_rootedTree {model : Model K}
    {input : List Symbol} {roots : SymbolWeights S} {d : Derivation}
    {path : List ParseTree.Turn} {part : ParseTree S}
    (hpart : (d.rootedTree model input roots).subtree? path = some part) :
    ∃ c ∈ d.constituents 0 (input.length - 1),
      part.root = c.derivation.root ∧ part.first = c.first ∧ part.last = c.last := by
  cases path with
  | nil =>
      obtain rfl := Option.some.inj hpart
      refine ⟨_, self_mem_constituents d 0 (input.length - 1), ?_⟩
      simp [rootedTree]
  | cons turn path =>
      rw [rootedTree, ParseTree.subtree?_multiply_cons] at hpart
      obtain ⟨c, hc, rfl⟩ := exists_constituent_of_subtree hpart
      exact ⟨c, hc, by simp⟩

section Marginals

variable [SelectiveWeights K S]

theorem NoCancellation.of_selective (model : Model K) (input : List Symbol) :
    NoCancellation S model input := by
  intro x first last _ _ hzero d hd
  exact eq_zero_of_sum_eq_zero hzero (mem_derivations.mpr hd)

variable [Scalar K] [CommutativeWeights K S] {model : Model K} {pass : InsidePass S}

/-- A marginal is no larger than the partition function, and as large only where a
heaviest complete derivation has a constituent. -/
theorem OutsidePass.marginal_run_spec (hpass : pass.Complete model)
    (hpolicy : model.policy.Covering) (prior : RootPrior K) {first last : Nat}
    (hspan : first ≤ last) (hlast : last < pass.input.length) (x : Symbol) :
    let marginal := (run model prior pass).marginal.get first last
    let Z := (run model prior pass).partition
    Ranked.le (marginal.get x) Z = true ∧
      (Z ≠ 0 → (marginal.get x = Z ↔
        ∃ d ∈ derivationsWith model.policy pass.input x first last,
          prior.weight d.root * d.weight model = Z)) := by
  intro marginal Z
  have hmarginal := get_marginal_run hpass hpolicy (.of_selective model pass.input) prior
    hspan hlast x
  have hle : Ranked.le (marginal.get x) Z = true := by
    rw [show marginal.get x = _ from hmarginal,
      show Z = completeSum S model prior pass.input from partition_run hpass prior]
    apply sum_le_sum_of_subset
    exact List.filter_subset_self _
  refine ⟨hle, fun hZ => ?_⟩
  constructor
  · intro heq
    rw [← heq, show marginal.get x = _ from hmarginal] at hZ ⊢
    exact exists_eq_sum hZ
  · rintro ⟨d, hd, hweight⟩
    refine MaximumWeights.le_antisymm hle ?_
    rw [← hweight, show marginal.get x = _ from hmarginal]
    exact le_sum_of_mem (fun d => (prior.weight d.root * d.weight model : S)) hd

/-- Weights of roots that the outside pass keeps are those of the prior. -/
theorem OutsidePass.rootedWeight_root_run (prior : RootPrior K) {d : Derivation}
    (hne : d.rootedWeight model (run model prior pass).root ≠ 0) :
    d.rootedWeight model (run model prior pass).root =
      (prior.weight d.root * d.weight model : S) := by
  have hroot : (run model prior pass).root.get d.root ≠ 0 := by
    intro hzero
    rw [Derivation.rootedWeight, hzero, LawfulWeights.mul_zero] at hne
    exact hne rfl
  rw [get_root_run, ite_ne_right_iff] at hroot
  rw [Derivation.rootedWeight, CommutativeWeights.mul_comm, get_root_run, if_pos hroot.1]

end Marginals

namespace Chart

/-- After both passes over a selective algebra no marginal exceeds the partition function.
One reaches it exactly where a complete derivation of this weight has a constituent, and so
at every constituent of the best tree. -/
theorem marginals_single_out_best_tree [Scalar K] [SelectiveWeights K S]
    [CommutativeWeights K S] (model : Model K) (hpolicy : model.policy.Lawful) (width : Nat)
    (width_pos : 0 < width) (prior : RootPrior K) (input : List Symbol)
    (hinput : input ≠ []) :
    ∃ chart : Chart S, parseMarginal model width width_pos prior input = .ok chart ∧
      ∃ roots Z trees, chart.rootWeights = .ok roots ∧ chart.partition = .ok Z ∧
        chart.bestTreesForPrior roots 1 = .ok trees ∧
        (∀ first last, first ≤ last → last < input.length → ∃ marginal,
          chart.marginal first last = .ok marginal ∧ ∀ x,
            Ranked.le (marginal.get x) Z = true ∧
              (Z ≠ 0 → (marginal.get x = Z ↔ ∃ d,
                Derives model.policy input d.root 0 (input.length - 1) d ∧
                  prior.weight d.root * d.weight model = Z ∧
                    ∃ part ∈ d.constituents 0 (input.length - 1), part.first = first ∧
                      part.last = last ∧ part.derivation.root = x))) ∧
        (Z ≠ 0 → ∃ tree, trees = [tree] ∧ ∀ path part, tree.subtree? path = some part →
          ∃ marginal, chart.marginal part.first part.last = .ok marginal ∧
            marginal.get part.root = Z) := by
  let pass : InsidePass S := .run model width width_pos input
  let outside : OutsidePass S := .run model prior pass
  let chart : Chart S := ⟨input.length, width, width_pos, .outsideDone pass outside⟩
  have hpass : pass.Complete model :=
    InsidePass.complete_run model hpolicy width width_pos hinput
  have hpos := List.length_pos_of_ne_nil hinput
  obtain ⟨kept, htrees, hnil, hkept⟩ :=
    InsidePass.bestTreesForPrior_one_run model width width_pos input hpolicy hinput
      outside.root
  have hread := bestTreesForPrior_eq chart rfl MaximumWeights.selective
    Nat.one_pos width_pos outside.root
  rw [htrees] at hread
  refine ⟨chart, parseMarginal_eq model width width_pos prior hinput, _, _, _, rfl, rfl,
    hread, ?_, ?_⟩
  · intro first last hspan hlast
    refine ⟨_, (reads_outsideDone hspan hlast).2.2, fun x => ?_⟩
    obtain ⟨hle, hiff⟩ := OutsidePass.marginal_run_spec hpass hpolicy prior hspan hlast x
    refine ⟨hle, fun hZ => (hiff hZ).trans ?_⟩
    constructor
    · rintro ⟨d, hd, hweight⟩
      obtain ⟨hcomplete, hpart⟩ := mem_derivationsWith.mp hd
      exact ⟨d, mem_completeDerivations.mp hcomplete, hweight, hpart⟩
    · rintro ⟨d, hd, hweight, hpart⟩
      exact ⟨d, mem_derivationsWith.mpr ⟨mem_completeDerivations.mpr hd, hpart⟩, hweight⟩
  · intro hZ
    obtain ⟨d, hd⟩ := List.exists_mem_of_ne_nil kept fun hempty => hZ (hnil.mp hempty)
    obtain ⟨rfl, hcomplete, hweight⟩ := hkept d hd
    refine ⟨_, rfl, ?_⟩
    intro path part hpart
    obtain ⟨c, hc, hroot, hfirst, hlast⟩ :=
      Derivation.exists_constituent_of_subtree_rootedTree hpart
    have hbounds := Derivation.bounds_of_mem_constituents
      (mem_completeDerivations.mp hcomplete) (Nat.zero_le _) hc
    have hend : c.last < input.length := by omega
    rw [hroot, hfirst, hlast]
    refine ⟨_, (reads_outsideDone hbounds.2.1 hend).2.2, ?_⟩
    apply ((OutsidePass.marginal_run_spec hpass hpolicy prior hbounds.2.1 hend _).2 hZ).mpr
    refine ⟨d, mem_derivationsWith.mpr ⟨hcomplete, c, hc, rfl, rfl, rfl⟩, ?_⟩
    rw [← OutsidePass.rootedWeight_root_run prior (by rw [hweight]; exact hZ)]
    exact hweight

/-- The best tree of three words takes two of them at once. -/
theorem marginals_single_out_best_tree_three_words :
    ∃ (chart : Chart (MaxProduct Nat)) (roots : SymbolWeights (MaxProduct Nat))
      (tree : ParseTree (MaxProduct Nat)),
      parseMarginal compoundModel 1 Nat.one_pos .uniform [⟨1⟩, ⟨1⟩, ⟨1⟩] = .ok chart ∧
        chart.partition = .ok ⟨5⟩ ∧ chart.bestTreesForPrior roots 1 = .ok [tree] ∧
        (∃ whole, chart.marginal tree.first tree.last = .ok whole ∧
          whole.get tree.root = ⟨5⟩) ∧
        ∃ middle, chart.marginal 1 1 = .ok middle ∧
          Ranked.le (middle.get ⟨0⟩) (⟨5⟩ : MaxProduct Nat) = true := by
  have hinput : ([⟨1⟩, ⟨1⟩, ⟨1⟩] : List Symbol) ≠ [] := by decide
  obtain ⟨chart, hparse, roots, Z, trees, _, hpartition, htrees, hcells, hbest⟩ :=
    marginals_single_out_best_tree (S := MaxProduct Nat) compoundModel
      (Policy.scan_lawful (by decide) (by decide)) 1 Nat.one_pos .uniform
      [⟨1⟩, ⟨1⟩, ⟨1⟩] hinput
  have hchart := parseMarginal_eq (S := MaxProduct Nat) compoundModel 1 Nat.one_pos
    .uniform hinput
  obtain rfl := Except.ok.inj (hchart.symm.trans hparse)
  have hZ : Z = ⟨5⟩ := by
    rw [← Except.ok.inj hpartition]
    exact MaxProduct.ext_value (by decide +kernel)
  subst hZ
  obtain ⟨tree, rfl, hparts⟩ := hbest
    fun hzero => absurd (congrArg MaxProduct.value hzero) (by decide)
  obtain ⟨middle, hmiddle, hle⟩ := hcells 1 1 (by decide) (by decide)
  exact ⟨_, roots, tree, hparse, hpartition, htrees, hparts [] tree rfl, middle, hmiddle,
    (hle ⟨0⟩).1⟩

end Chart

end WeightedParsing
