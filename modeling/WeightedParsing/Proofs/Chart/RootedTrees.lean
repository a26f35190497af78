import WeightedParsing.Proofs.Chart.BestTree
import WeightedParsing.Proofs.Chart.Marginal

/-!
# The best trees under weights of their roots

Where the root of an input is open, the trees of all roots compete, each multiplied by the
weight of its root.  The trees of one root keep their order under the common factor, so the
best of every root suffice to select from.  The partition function sums up the same
derivations root by root, and in a selective algebra it is the weight of the first tree.
-/

namespace WeightedParsing

variable {K S : Type} [WeightAlgebra K S]

namespace Derivation

/-- The weight of a complete derivation times that of its root. -/
def rootedWeight (model : Model K) (roots : SymbolWeights S) (d : Derivation) : S :=
  d.weight model * roots.get d.root

def rootedTree (model : Model K) (input : List Symbol) (roots : SymbolWeights S)
    (d : Derivation) : ParseTree S :=
  (d.tree model 0 (input.length - 1)).multiply (roots.get d.root)

def hasRootedWeight (model : Model K) (roots : SymbolWeights S) (d : Derivation) : Bool :=
  !WeightAlgebra.isZero (d.rootedWeight model roots)

@[simp] theorem weight_rootedTree (model : Model K) (input : List Symbol)
    (roots : SymbolWeights S) (d : Derivation) :
    (d.rootedTree model input roots).weight = d.rootedWeight model roots := by
  rw [rootedTree, ParseTree.weight_multiply, weight_tree, rootedWeight]

theorem hasRootedWeight_iff [LawfulWeights K S] {model : Model K}
    {roots : SymbolWeights S} {d : Derivation} :
    d.hasRootedWeight model roots = true ↔ d.rootedWeight model roots ≠ 0 := by
  rw [hasRootedWeight, Bool.not_eq_true', ← Bool.not_eq_true, isZero_eq_true_iff]

theorem hasRootedWeight_of_eq_zero [LawfulWeights K S] {model : Model K}
    {roots : SymbolWeights S} {d : Derivation}
    (hzero : roots.get d.root = 0) : d.hasRootedWeight model roots = false := by
  rw [← Bool.not_eq_true, hasRootedWeight_iff, not_not,
    rootedWeight, hzero, LawfulWeights.mul_zero]

theorem hasRootedWeight_of_ne_zero [IntegralWeights K S] {model : Model K}
    {roots : SymbolWeights S} {d : Derivation}
    (hne : roots.get d.root ≠ 0) :
    d.hasRootedWeight model roots = d.hasWeight S model := by
  rw [Bool.eq_iff_iff, hasRootedWeight_iff, hasWeight_iff,
    rootedWeight]
  constructor
  · intro hweight hzero
    rw [hzero, LawfulWeights.zero_mul] at hweight
    exact hweight rfl
  · intro hweight
    exact mul_ne_zero_of hweight hne

end Derivation

/-- The derivations of the whole input that have weight under weights of their roots. -/
def rootedDerivations (model : Model K) (input : List Symbol) (roots : SymbolWeights S) :
    List Derivation :=
  (completeDerivations model.policy input).filter (Derivation.hasRootedWeight model roots)

/-- The trees of `count` different derivations that have weight under weights of their
roots, or of all of them, in order of these weights, such that no other derivation is
heavier.  The weight of its root enters a tree at the top and nowhere below. -/
structure AreBestRootedTrees (model : Model K) (input : List Symbol)
    (roots : SymbolWeights S) (count : Nat) (trees : List (ParseTree S)) : Prop where
  nodup : trees.Nodup
  length_eq : trees.length = min count (rootedDerivations model input roots).length
  of_derivation : ∀ tree ∈ trees, ∃ d ∈ rootedDerivations model input roots,
    tree = (d.tree model 0 (input.length - 1)).multiply (roots.get d.root) ∧
      tree.root = d.root ∧ tree.weight = d.weight model * roots.get d.root
  subtree_applies : ∀ tree ∈ trees, ∀ turn path part,
    tree.subtree? (turn :: path) = some part → part.AppliesRule model input
  descending : Ranked.Descending ParseTree.weight trees
  not_lt : ∀ d ∈ rootedDerivations model input roots,
    (d.tree model 0 (input.length - 1)).multiply (roots.get d.root) ∉ trees →
      ∀ tree ∈ trees,
        ¬Ranked.lt tree.weight (d.weight model * roots.get d.root) = true

/-! ## Derivations by their roots -/

theorem SymbolWeights.flatMap_entries {β : Type} (weights : SymbolWeights S)
    (f : Symbol → S → List β) :
    (weights.entries.flatMap fun entry => f entry.1 entry.2) =
      weights.symbols.flatMap fun x => f x (weights.get x) := by
  rw [symbols, OrderedTable.keys, List.flatMap_map]
  apply List.flatMap_congr
  intro entry hentry
  rw [get_of_mem_entries hentry]

section Roots

variable [LawfulWeights K S] {model : Model K} {input : List Symbol}

theorem isListing_rootedDerivations (hpolicy : model.policy.Covering)
    (input : List Symbol) (roots : SymbolWeights S) :
    IsListing (rootedDerivations model input roots) fun d =>
      Derives model.policy input d.root 0 (input.length - 1) d ∧
        d.weight model * roots.get d.root ≠ 0 where
  nodup := (nodup_derivationsOver hpolicy input 0 (input.length - 1)).filter _
  mem_iff := by
    intro d
    rw [rootedDerivations, List.mem_filter, mem_completeDerivations,
      Derivation.hasRootedWeight_iff, Derivation.rootedWeight]

theorem mem_symbols_of_rootedWeight_ne_zero {roots : SymbolWeights S} {d : Derivation}
    (h : d.rootedWeight model roots ≠ 0) : d.root ∈ roots.symbols := by
  by_contra hroot
  apply h
  rw [Derivation.rootedWeight, SymbolWeights.get_eq_zero_of_not_mem hroot,
    LawfulWeights.mul_zero]

theorem rootedDerivations_perm (hpolicy : model.policy.Covering) (input : List Symbol)
    (roots : SymbolWeights S) :
    (rootedDerivations model input roots).Perm
      (roots.symbols.flatMap fun x =>
        (derivations model.policy input x 0 (input.length - 1)).filter
          (Derivation.hasRootedWeight model roots)) := by
  have hlisting := isListing_rootedDerivations hpolicy input roots
  have hsymbols : roots.symbols.Nodup := roots.table.nodup_keys
  rw [List.perm_ext_iff_of_nodup hlisting.nodup]
  · intro d
    simp only [rootedDerivations, List.mem_flatMap, List.mem_filter,
      mem_derivations_iff_root]
    constructor
    · rintro ⟨hd, hweight⟩
      have hroot := mem_symbols_of_rootedWeight_ne_zero
        (Derivation.hasRootedWeight_iff.mp hweight)
      exact ⟨d.root, hroot, ⟨hd, rfl⟩, hweight⟩
    · rintro ⟨x, _, ⟨hd, _⟩, hweight⟩
      exact ⟨hd, hweight⟩
  · apply nodup_flatMap_of_unique hsymbols
    · intro x _
      exact (isListing_derivations hpolicy input x 0 (input.length - 1)).nodup.filter _
    · intro x x' d hd hd'
      have hroot := (mem_derivations_iff_root.mp (List.mem_of_mem_filter hd)).2
      have hroot' := (mem_derivations_iff_root.mp (List.mem_of_mem_filter hd')).2
      rw [← hroot, hroot']

attribute [local instance] LawfulWeights.semiring

/-- The partition function of any weights of roots sums over complete derivations. -/
theorem partitionFunction_eq_sum (hpolicy : model.policy.Covering)
    {inside : SymbolWeights S}
    (hinside : ∀ x, inside.get x = derivationSum model input x 0 (input.length - 1))
    (roots : SymbolWeights S) :
    partitionFunction roots inside =
      ((rootedDerivations model input roots).map
        (Derivation.rootedWeight model roots)).sum := by
  have hentries : (roots.entries.map fun e => inside.get e.1 * e.2).sum =
      (roots.symbols.map fun x => inside.get x * roots.get x).sum := by
    rw [SymbolWeights.symbols, OrderedTable.keys, List.map_map]
    congr 1
    apply List.map_congr_left
    intro entry hentry
    rw [Function.comp_apply, SymbolWeights.get_of_mem_entries hentry]
  rw [partitionFunction, foldl_add_eq_sum, zero_add, hentries,
    ((rootedDerivations_perm hpolicy input roots).map _).sum_eq, sum_flatMap]
  congr 1
  apply List.map_congr_left
  intro x _
  rw [hinside, derivationSum, ← List.sum_map_mul_right, sum_filter]
  congr 1
  apply List.map_congr_left
  intro d hd
  obtain ⟨_, rfl⟩ := mem_derivations_iff_root.mp hd
  split
  · rfl
  · rename_i hweight
    rw [Derivation.hasRootedWeight_iff, not_not] at hweight
    exact hweight

end Roots

/-! ## Selecting from the trees of all roots -/

section Selecting

variable [SelectiveWeights K S] (model : Model K) (width : Nat)
  (width_pos : 0 < width) (input : List Symbol) {count : Nat}

omit [SelectiveWeights K S] in
/-- Of the trees with one root those that lose their weight under it are left out. -/
theorem filterMap_multiply_eq {x : Symbol} (roots : SymbolWeights S)
    {kept : List Derivation} (hroot : ∀ d ∈ kept, d.root = x) :
    ((kept.map fun d => (d.tree model 0 (input.length - 1) : ParseTree S)).filterMap
      fun tree =>
        let tree := tree.multiply (roots.get x)
        if WeightAlgebra.isZero tree.weight then none else some (tree, tree.weight)) =
      (kept.filter (Derivation.hasRootedWeight model roots)).map fun d =>
        (d.rootedTree model input roots, d.rootedWeight model roots) := by
  rw [List.filterMap_map, ← List.filterMap_eq_filter, List.map_filterMap]
  apply List.filterMap_congr
  intro d hd
  obtain rfl := hroot d hd
  change (if WeightAlgebra.isZero (d.rootedTree model input roots).weight then none
    else some (d.rootedTree model input roots,
      (d.rootedTree model input roots).weight)) = _
  rw [Derivation.weight_rootedTree]
  cases hweight : WeightAlgebra.isZero (d.rootedWeight model roots)
  · simp [Option.guard, Derivation.hasRootedWeight, hweight]
  · simp [Option.guard, Derivation.hasRootedWeight, hweight]

/-- Derivations of one root keep their order under its weight, unless it takes the weight
from all of them. -/
theorem Suffices.filter_hasRootedWeight {x : Symbol} (roots : SymbolWeights S)
    {kept : List Derivation}
    (hkept : Suffices (Derivation.weight (S := S) model) count kept
      (nonzeroDerivations S model input x 0 (input.length - 1))) :
    Suffices (Derivation.rootedWeight model roots) count
      (kept.filter (Derivation.hasRootedWeight model roots))
      ((derivations model.policy input x 0 (input.length - 1)).filter
        (Derivation.hasRootedWeight model roots)) := by
  have hroot : ∀ d ∈ derivations model.policy input x 0 (input.length - 1), d.root = x :=
    fun d hd => (mem_derivations_iff_root.mp hd).2
  have hnonzero : ∀ d ∈ kept, d ∈ nonzeroDerivations S model input x 0 (input.length - 1) :=
    fun d hd => hkept.mem hd
  have hrootKept : ∀ d ∈ kept, d.root = x :=
    fun d hd => hroot d (List.mem_of_mem_filter (hnonzero d hd))
  by_cases hzero : roots.get x = 0
  · have hnone : ∀ ds : List Derivation, (∀ d ∈ ds, d.root = x) →
        ds.filter (Derivation.hasRootedWeight model roots) = [] := by
      intro ds hds
      rw [List.filter_eq_nil_iff]
      intro d hd
      rw [Derivation.hasRootedWeight_of_eq_zero (by rw [hds d hd, hzero])]
      exact Bool.false_ne_true
    rw [hnone _ hroot, hnone kept hrootKept]
    exact .refl []
  · have hsame : ∀ ds : List Derivation, (∀ d ∈ ds, d.root = x) →
        ds.filter (Derivation.hasRootedWeight model roots) =
          ds.filter (Derivation.hasWeight S model) := by
      intro ds hds
      apply List.filter_congr
      intro d hd
      exact Derivation.hasRootedWeight_of_ne_zero (by rwa [hds d hd])
    have hweights : kept.filter (Derivation.hasWeight S model) = kept :=
      List.filter_eq_self.mpr fun d hd => (List.mem_filter.mp (hnonzero d hd)).2
    rw [hsame _ hroot, hsame kept hrootKept, hweights]
    apply hkept.mono
    intro a ha b hb hab
    rw [Derivation.rootedWeight, Derivation.rootedWeight, hroot a (List.mem_of_mem_filter ha),
      hroot b (List.mem_of_mem_filter hb)]
    exact SelectiveWeights.mul_le_mul_right _ hab

theorem InsidePass.bestTreesForPrior_run (hpolicy : model.policy.Covering)
    (hinput : input ≠ []) (count_pos : 0 < count) (hcount : count ≤ width)
    (roots : SymbolWeights S) :
    ∃ kept,
      (run model width width_pos input : InsidePass S).bestTreesForPrior count count_pos
          roots =
        kept.map (Derivation.rootedTree model input roots) ∧
      Heaviest (Derivation.rootedWeight model roots) count
        (rootedDerivations model input roots) kept ∧
      Ranked.Descending (Derivation.rootedWeight model roots) kept := by
  have hpos := List.length_pos_of_ne_nil hinput
  have htrees : ∀ x, SpellsHeaviest model input x 0 (input.length - 1) count
      ((run model width width_pos input : InsidePass S).bestTrees count count_pos x 0
        (input.length - 1)) := fun x =>
    bestTrees_spellsHeaviest model width width_pos input hpolicy count_pos hcount
      (Nat.zero_le _) (by omega) x
  choose heaviest hspell hheaviest _ using htrees
  have hroot : ∀ x, ∀ d ∈ heaviest x, d.root = x := fun x d hd =>
    (mem_derivations_iff_root.mp (List.mem_of_mem_filter ((hheaviest x).mem hd))).2
  have hoffers := roots.flatMap_entries fun x weight =>
    ((run model width width_pos input : InsidePass S).bestTrees count count_pos x 0
      (input.length - 1)).filterMap fun tree =>
        let tree := tree.multiply weight
        if WeightAlgebra.isZero tree.weight then none else some (tree, tree.weight)
  simp only [hspell, filterMap_multiply_eq model input roots (hroot _)] at hoffers
  obtain ⟨kept, hselect, hkept, hsorted⟩ :=
    selectTrees_spec count_pos (Derivation.rootedTree model input roots)
      (Derivation.rootedWeight model roots) (roots.symbols.flatMap fun x =>
        (heaviest x).filter (Derivation.hasRootedWeight model roots))
  refine ⟨kept, ?_, ?_, hsorted⟩
  · rw [← hselect, List.map_flatMap, ← hoffers, bestTreesForPrior, size_cells_run]
    simp only [← hspell]
    rfl
  · refine Heaviest.of_perm (hkept.of_suffices (Suffices.flatMap ?_))
      (rootedDerivations_perm hpolicy input roots)
    intro x _
    exact (hheaviest x).toSuffices.filter_hasRootedWeight model input roots

end Selecting

section Selected

variable {model : Model K} {input : List Symbol} {roots : SymbolWeights S} {count : Nat}
  {kept : List Derivation}

theorem Derivation.root_rootedTree (d : Derivation) :
    (d.rootedTree model input roots).root = d.root := by
  rw [rootedTree, ParseTree.root_multiply, root_tree]

theorem nodup_map_rootedTree (hnodup : kept.Nodup)
    (h : ∀ d ∈ kept, d ∈ completeDerivations model.policy input) :
    (kept.map (Derivation.rootedTree model input roots)).Nodup := by
  apply hnodup.map_on
  intro d hd d' hd' heq
  have hderivation := congrArg ParseTree.derivation heq
  rwa [Derivation.rootedTree, Derivation.rootedTree, ParseTree.derivation_multiply,
    ParseTree.derivation_multiply, (mem_completeDerivations.mp (h d hd)).derivation_tree,
    (mem_completeDerivations.mp (h d' hd')).derivation_tree] at hderivation

variable [SelectiveWeights K S]

theorem areBestRootedTrees_of_heaviest (hpolicy : model.policy.Covering)
    (hkept : Heaviest (Derivation.rootedWeight model roots) count
      (rootedDerivations model input roots) kept)
    (hsorted : Ranked.Descending (Derivation.rootedWeight model roots) kept) :
    AreBestRootedTrees model input roots count
      (kept.map (Derivation.rootedTree model input roots)) := by
  have hlisting := isListing_rootedDerivations hpolicy input roots
  have hcomplete : ∀ d ∈ kept, d ∈ completeDerivations model.policy input :=
    fun d hd => List.mem_of_mem_filter (hkept.mem hd)
  constructor
  · exact nodup_map_rootedTree (hkept.nodup hlisting.nodup) hcomplete
  · obtain ⟨_, _, hlength, _⟩ := hkept
    rw [List.length_map, hlength]
  · intro tree htree
    obtain ⟨d, hd, rfl⟩ := List.mem_map.mp htree
    exact ⟨d, hkept.mem hd, rfl, d.root_rootedTree, d.weight_rootedTree model input roots⟩
  · intro tree htree turn path part hpart
    obtain ⟨d, hd, rfl⟩ := List.mem_map.mp htree
    rw [Derivation.rootedTree, ParseTree.subtree?_multiply_cons] at hpart
    exact (mem_completeDerivations.mp (hcomplete d hd)).everyPart_appliesRule _ _ hpart
  · apply List.pairwise_map.mpr
    simp only [Derivation.weight_rootedTree]
    exact hsorted
  · intro d hd hnot tree htree
    obtain ⟨a, ha, rfl⟩ := List.mem_map.mp htree
    have hdropped : d ∉ kept := fun hmem => hnot (List.mem_map_of_mem hmem)
    rw [Ranked.lt_iff_not_le, not_not, Derivation.weight_rootedTree]
    exact hkept.le_of_not_mem ha hd hdropped

attribute [local instance] LawfulWeights.semiring

/-- One derivation is selected exactly if there is weight, and it has all of it. -/
theorem sum_eq_of_heaviest_one
    (hkept : Heaviest (Derivation.rootedWeight model roots) 1
      (rootedDerivations model input roots) kept)
    (hsorted : Ranked.Descending (Derivation.rootedWeight model roots) kept) :
    (kept = [] ↔ ((rootedDerivations model input roots).map
        (Derivation.rootedWeight model roots)).sum = 0) ∧
      ∀ d ∈ kept, kept = [d] ∧ d ∈ completeDerivations model.policy input ∧
        d.rootedWeight model roots =
          ((rootedDerivations model input roots).map
            (Derivation.rootedWeight model roots)).sum := by
  cases kept with
  | nil => simp [hkept.all_eq_nil Nat.one_pos]
  | cons d rest =>
      have hd := hkept.mem List.mem_cons_self
      obtain ⟨hcomplete, hweight⟩ := List.mem_filter.mp hd
      have hsum := sum_eq_of_isMax hd (hkept.le_head hsorted)
      have hrest : rest = [] := by
        obtain ⟨_, _, hlength, _⟩ := hkept
        rw [List.length_cons] at hlength
        exact List.length_eq_zero_iff.mp (by omega)
      subst hrest
      rw [hsum]
      simp [hcomplete, Derivation.hasRootedWeight_iff.mp hweight]

end Selected

namespace Chart

theorem bestTreesForPrior_eq (chart : Chart S) {pass : InsidePass S} {count : Nat}
    (hpass : chart.insidePass = .ok pass)
    (hselective : WeightAlgebra.selective S = true) (count_pos : 0 < count)
    (hcount : count ≤ chart.beamWidth) (roots : SymbolWeights S) :
    chart.bestTreesForPrior roots count =
      .ok (pass.bestTreesForPrior count count_pos roots) := by
  unfold bestTreesForPrior requireSelective requireCount
  rw [if_pos hselective, hpass, dif_pos ⟨count_pos, hcount⟩]
  rfl

end Chart

section One

variable [SelectiveWeights K S] (model : Model K) (width : Nat) (width_pos : 0 < width)
  (input : List Symbol)

/-- The best tree of all roots has the whole partition function. -/
theorem InsidePass.bestTreesForPrior_one_run (hpolicy : model.policy.Covering)
    (hinput : input ≠ []) (roots : SymbolWeights S) :
    let pass : InsidePass S := run model width width_pos input
    let Z := partitionFunction roots (pass.inside 0 (input.length - 1))
    ∃ kept, pass.bestTreesForPrior 1 Nat.one_pos roots =
        kept.map (Derivation.rootedTree model input roots) ∧
      (kept = [] ↔ Z = 0) ∧ ∀ d ∈ kept, kept = [d] ∧
        d ∈ completeDerivations model.policy input ∧ d.rootedWeight model roots = Z := by
  intro pass Z
  have hpos := List.length_pos_of_ne_nil hinput
  obtain ⟨kept, htrees, hkept, hsorted⟩ :=
    bestTreesForPrior_run model width width_pos input hpolicy hinput Nat.one_pos width_pos
      roots
  have hinside := get_inside_run_eq_derivationSum (S := S) model hpolicy width width_pos
    input (Nat.zero_le _) (by omega : input.length - 1 < input.length)
  refine ⟨kept, htrees, ?_⟩
  rw [show Z = _ from partitionFunction_eq_sum hpolicy hinside roots]
  exact sum_eq_of_heaviest_one hkept hsorted

end One

namespace Chart

/-- The trees of all roots that weigh most under weights of their roots are listed, as
many as are asked for.  Under the weights that the outside pass leaves to the roots the
first of them has the whole partition function. -/
theorem bestTreesForPrior_agree_with_partition [Scalar K] [SelectiveWeights K S]
    (model : Model K) (hpolicy : model.policy.Lawful) (width : Nat)
    (width_pos : 0 < width) (input : List Symbol) (hinput : input ≠ []) :
    ∃ chart : Chart S, parseInside model width width_pos input = .ok chart ∧
      (∀ roots : SymbolWeights S,
        IsListing (rootedDerivations model input roots)
            (fun d => Derives model.policy input d.root 0 (input.length - 1) d ∧
              d.weight model * roots.get d.root ≠ 0) ∧
          ∀ count, 0 < count → count ≤ width → ∃ trees,
            chart.bestTreesForPrior roots count = .ok trees ∧
              AreBestRootedTrees model input roots count trees) ∧
      ∀ prior : RootPrior K, ∃ full : Chart S,
        chart.fillOutside model prior = .ok full ∧
          (∀ roots count,
            full.bestTreesForPrior roots count = chart.bestTreesForPrior roots count) ∧
          ∃ roots Z trees, full.rootWeights = .ok roots ∧ full.partition = .ok Z ∧
            full.bestTreesForPrior roots 1 = .ok trees ∧ (trees = [] ↔ Z = 0) ∧
              ∀ tree ∈ trees.head?, tree.weight = Z := by
  refine ⟨_, parseInside_eq model width width_pos hinput, ?_, ?_⟩
  · intro roots
    refine ⟨isListing_rootedDerivations hpolicy input roots, ?_⟩
    intro count count_pos hcount
    obtain ⟨kept, htrees, hkept, hsorted⟩ :=
      InsidePass.bestTreesForPrior_run model width width_pos input hpolicy hinput count_pos
        hcount roots
    refine ⟨_, bestTreesForPrior_eq _ rfl MaximumWeights.selective count_pos hcount roots,
      ?_⟩
    rw [htrees]
    exact areBestRootedTrees_of_heaviest hpolicy hkept hsorted
  · intro prior
    let pass : InsidePass S := .run model width width_pos input
    let full : Chart S :=
      ⟨input.length, width, width_pos, .outsideDone pass (.run model prior pass)⟩
    obtain ⟨kept, htrees, hnil, hweight⟩ :=
      InsidePass.bestTreesForPrior_one_run model width width_pos input hpolicy hinput
        (OutsidePass.run model prior pass).root
    have hread := bestTreesForPrior_eq full rfl MaximumWeights.selective
      Nat.one_pos width_pos (OutsidePass.run model prior pass).root
    rw [htrees] at hread
    refine ⟨full, rfl, fun _ _ => rfl, _, _, _, rfl, rfl, hread, ?_, ?_⟩
    · rw [List.map_eq_nil_iff]
      exact hnil
    · intro tree htree
      obtain ⟨d, hd, rfl⟩ := List.mem_map.mp (List.mem_of_mem_head? htree)
      rw [Derivation.weight_rootedTree]
      exact (hweight d hd).2.2

/-- Under weights of two roots three of four derivations are asked for; a prior that
allows for one root leaves it with the heaviest. -/
theorem bestTreesForPrior_agree_with_partition_three_words :
    ∃ chart full : Chart (MaxProduct Nat),
      parseInside compoundModel 3 (by decide) [⟨1⟩, ⟨1⟩, ⟨1⟩] = .ok chart ∧
        (∃ trees,
          chart.bestTreesForPrior (.ofList [(⟨0⟩, ⟨3⟩), (⟨7⟩, ⟨2⟩)]) 3 = .ok trees ∧
            trees.length = 3 ∧ trees.Nodup) ∧
        chart.fillOutside compoundModel (.point ⟨0⟩) = .ok full ∧
          ∃ roots tree rest, full.rootWeights = .ok roots ∧ full.partition = .ok ⟨5⟩ ∧
            full.bestTreesForPrior roots 1 = .ok (tree :: rest) ∧ tree.weight = ⟨5⟩ := by
  have hinput : ([⟨1⟩, ⟨1⟩, ⟨1⟩] : List Symbol) ≠ [] := by decide
  obtain ⟨chart, hparse, hbest, houtside⟩ :=
    bestTreesForPrior_agree_with_partition (S := MaxProduct Nat) compoundModel
      (Policy.scan_lawful (by decide) (by decide)) 3 (by decide) [⟨1⟩, ⟨1⟩, ⟨1⟩] hinput
  obtain ⟨_, hcount⟩ := hbest (.ofList [(⟨0⟩, ⟨3⟩), (⟨7⟩, ⟨2⟩)])
  obtain ⟨trees, hread, htrees⟩ := hcount 3 (by decide) (by decide)
  obtain ⟨full, hfill, _, roots, Z, one, hroots, hpartition, hone, hnil, hweight⟩ :=
    houtside (.point ⟨0⟩)
  obtain rfl := Except.ok.inj
    ((parseInside_eq compoundModel 3 (by decide) hinput).symm.trans hparse)
  obtain rfl := Except.ok.inj hfill
  have hZ : Z = ⟨5⟩ := by
    rw [← Except.ok.inj hpartition]
    exact MaxProduct.ext_value (by decide +kernel)
  subst hZ
  refine ⟨_, _, hparse, ⟨trees, hread, ?_, htrees.nodup⟩, hfill, roots, ?_⟩
  · rw [htrees.length_eq]
    decide +kernel
  · cases one with
    | nil => exact absurd (congrArg MaxProduct.value (hnil.mp rfl)) (by decide)
    | cons tree rest =>
        exact ⟨tree, rest, hroots, hpartition, hone, hweight tree rfl⟩

end Chart

end WeightedParsing
