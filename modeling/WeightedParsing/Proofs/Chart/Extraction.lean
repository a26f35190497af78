import WeightedParsing.Proofs.Chart.Backpointer

/-!
# The best trees are the best derivations

Trees are listed by back-pointers, and only so many of each kind are looked at: a
cell keeps some back-pointers, a request follows some of these and joins some
subtrees on either side.  None of these cuts loses a tree that is asked for.  A
back-pointer that is cut leaves enough others behind, each with a derivation that
weighs no less, and a subtree that is cut leaves enough others behind to join.  What
is listed therefore suffices to select the best trees from, by induction on the width
of the span.
-/

namespace WeightedParsing

variable {K S : Type} [WeightAlgebra K S]

/-- The trees of the heaviest derivations that have weight, the heaviest first. -/
def SpellsHeaviest (model : Model K) (input : List Symbol) (x : Symbol)
    (first last count : Nat) (trees : List (ParseTree S)) : Prop :=
  ∃ kept, trees = kept.map (fun d => d.tree model first last) ∧
    Heaviest (Derivation.weight (S := S) model) count
      (nonzeroDerivations S model input x first last) kept ∧
    Ranked.Descending (Derivation.weight (S := S) model) kept

/-- The lists of trees for narrower spans spell out the heaviest derivations. -/
def SpellsNarrower (model : Model K) (input : List Symbol) (first last count : Nat)
    (trees : Symbol → (first last : Nat) → List (ParseTree S)) : Prop :=
  ∀ x s e, s ≤ e → e < input.length → e - s < last - first →
    SpellsHeaviest model input x s e count (trees x s e)

/-- The trees of `count` different derivations that have weight, or of all of them,
in order of their weights, such that no other derivation is heavier. -/
structure AreBestTrees (model : Model K) (input : List Symbol) (x : Symbol)
    (first last count : Nat) (trees : List (ParseTree S)) : Prop where
  nodup : trees.Nodup
  length_eq :
    trees.length = min count (nonzeroDerivations S model input x first last).length
  of_derivation : ∀ tree ∈ trees,
    ∃ d ∈ nonzeroDerivations S model input x first last,
      tree = d.tree model first last ∧ tree.weight = d.weight model
  descending : Ranked.Descending ParseTree.weight trees
  not_lt : ∀ d ∈ nonzeroDerivations S model input x first last,
    d.tree model first last ∉ trees →
      ∀ tree ∈ trees, ¬Ranked.lt tree.weight (d.weight model) = true

theorem SpellsHeaviest.areBestTrees [SelectiveWeights K S] {model : Model K}
    (hpolicy : model.policy.Covering) {input : List Symbol} {x : Symbol}
    {first last count : Nat} {trees : List (ParseTree S)}
    (h : SpellsHeaviest model input x first last count trees) :
    AreBestTrees model input x first last count trees := by
  obtain ⟨kept, rfl, hkept, hsorted⟩ := h
  have hlisting := isListing_nonzeroDerivations (S := S) hpolicy input x first last
  constructor
  · apply nodup_map_tree model (hkept.nodup hlisting.nodup)
    intro d hd
    exact ((hlisting.mem_iff d).mp (hkept.mem hd)).1
  · obtain ⟨_, _, hlength, _⟩ := hkept
    rw [List.length_map, hlength]
  · intro tree htree
    obtain ⟨d, hd, rfl⟩ := List.mem_map.mp htree
    exact ⟨d, hkept.mem hd, rfl, d.weight_tree model first last⟩
  · apply List.pairwise_map.mpr
    simp only [Derivation.weight_tree]
    exact hsorted
  · intro d hd hnot tree htree
    obtain ⟨a, ha, rfl⟩ := List.mem_map.mp htree
    have hdropped : d ∉ kept := fun hmem => hnot (List.mem_map_of_mem hmem)
    rw [Ranked.lt_iff_not_le, not_not, Derivation.weight_tree]
    exact hkept.le_of_not_mem ha hd hdropped

/-! ## One span -/

/-- However weights compare, a selection holds only trees that it was made from. -/
theorem mem_of_mem_selectTrees {count : Nat} (count_pos : 0 < count)
    {trees : List (ParseTree S × S)} {tree : ParseTree S}
    (htree : tree ∈ selectTrees count count_pos trees) : tree ∈ trees.map Prod.fst := by
  obtain ⟨entry, hentry, rfl⟩ := List.mem_map.mp htree
  have hheld := (BoundedHeap.drainDescending_perm _).mem_iff.mp hentry
  exact List.mem_map_of_mem (BoundedHeap.toList_offerAll_empty_subset count_pos trees hheld)

theorem selectTrees_nil {count : Nat} (count_pos : 0 < count) :
    (selectTrees count count_pos [] : List (ParseTree S)) = [] :=
  List.eq_nil_iff_forall_not_mem.mpr fun _ htree =>
    absurd (mem_of_mem_selectTrees count_pos htree) List.not_mem_nil

section Span

variable [SelectiveWeights K S] {model : Model K} {input : List Symbol}
  {inside : (first last : Nat) → SymbolWeights S} {first last count : Nat}
  {trees : Symbol → (first last : Nat) → List (ParseTree S)}

def weightedTree (model : Model K) (first last : Nat) (d : Derivation) :
    ParseTree S × S :=
  (d.tree model first last, d.weight model)

theorem treesThrough_spec {back : Backpointer S} (hlast : last < input.length)
    (hback : back ∈ insideBackpointers model input inside first last)
    (htrees : SpellsNarrower model input first last count trees) :
    ∃ part, treesThrough trees first last back =
        part.map (weightedTree model first last) ∧
      Suffices (Derivation.weight (S := S) model) count part
        (back.derivations model input first last) := by
  rcases mem_insideBackpointers.mp hback with
    ⟨rule, _, _, rfl⟩ | ⟨split, hsplit, rule, _, _, rfl⟩
  · exact ⟨[.leaf rule], rfl, .refl _⟩
  · obtain ⟨lefts, hleftTrees, hlefts, _⟩ :=
      htrees rule.left first (first + split) (by omega) (by omega) (by omega)
    obtain ⟨rights, hrightTrees, hrights, _⟩ :=
      htrees rule.right (first + split + 1) last (by omega) hlast (by omega)
    refine ⟨joins split rule lefts rights, ?_,
      .joins model hlefts.toSuffices hrights.toSuffices⟩
    simp only [treesThrough, hleftTrees, hrightTrees, joins, List.flatMap_map,
      List.map_flatMap, List.map_map, Function.comp_def, weightedTree, Derivation.tree,
      Derivation.weight, Derivation.weight_tree]

theorem flatMap_treesThrough_spec {backs : List (Backpointer S)}
    (hlast : last < input.length)
    (hbacks : ∀ back ∈ backs, back ∈ insideBackpointers model input inside first last)
    (htrees : SpellsNarrower model input first last count trees) :
    ∃ part, backs.flatMap (treesThrough trees first last) =
        part.map (weightedTree model first last) ∧
      Suffices (Derivation.weight (S := S) model) count part
        (backs.flatMap (Backpointer.derivations model input first last)) := by
  induction backs with
  | nil => exact ⟨[], rfl, .refl _⟩
  | cons back rest ih =>
      obtain ⟨part, hpart, hsuffices⟩ :=
        treesThrough_spec hlast (hbacks back List.mem_cons_self) htrees
      obtain ⟨parts, hparts, hrest⟩ :=
        ih fun b hb => hbacks b (List.mem_cons_of_mem _ hb)
      refine ⟨part ++ parts, ?_, ?_⟩
      · rw [List.flatMap_cons, hpart, hparts, List.map_append]
      · exact hsuffices.append hrest

theorem selectTrees_spec {α : Type} (count_pos : 0 < count) (tree : α → ParseTree S)
    (weight : α → S) (entries : List α) :
    ∃ kept, selectTrees count count_pos (entries.map fun a => (tree a, weight a)) =
        kept.map tree ∧
      Heaviest weight count entries kept ∧ Ranked.Descending weight kept := by
  obtain ⟨kept, hdrain, hkept⟩ :=
    BoundedHeap.drainDescending_offerAll_empty count_pos tree weight entries
  refine ⟨kept, ?_, hkept⟩
  have hfst := congrArg (List.map Prod.fst) hdrain
  rw [List.map_map] at hfst
  exact hfst

/-- Expanding as many back-pointers as trees are asked for is enough. -/
theorem selectTrees_spellsHeaviest {x : Symbol} {backs : List (Backpointer S)}
    (hpolicy : model.policy.Covering) (count_pos : 0 < count) (hspan : first ≤ last)
    (hlast : last < input.length)
    (hsums : SumsNarrower model input inside first last)
    (hbacks : Heaviest Backpointer.derivationWeight count
      (symbolBackpointers model input inside x first last) backs)
    (htrees : SpellsNarrower model input first last count trees) :
    SpellsHeaviest model input x first last count
      (selectTrees count count_pos
        (backs.flatMap (treesThrough trees first last))) := by
  have hmem : ∀ back ∈ symbolBackpointers model input inside x first last,
      back ∈ insideBackpointers model input inside first last :=
    fun back hback => List.mem_of_mem_filter hback
  obtain ⟨part, hpart, hsuffices⟩ := flatMap_treesThrough_spec hlast
    (fun back hback => hmem back (hbacks.mem hback)) htrees
  have hexpand : Suffices (Derivation.weight (S := S) model) count
      (backs.flatMap (Backpointer.derivations model input first last))
      (nonzeroDerivations S model input x first last) := by
    rw [nonzeroDerivations_eq_flatMap hpolicy hspan hlast hsums]
    apply Suffices.flatMap_of_heaviest hbacks
    · intro back hback d hd
      exact (Backpointer.isMax_derivations hsums (hmem back hback)).1 d hd
    · intro back hback
      obtain ⟨_, d, hd, hweight⟩ :=
        Backpointer.isMax_derivations hsums (hmem back hback)
      refine ⟨d, hd, ?_⟩
      rw [hweight]
      exact Ranked.le_refl _
  obtain ⟨kept, hselect, hkept, hsorted⟩ :=
    selectTrees_spec count_pos (fun d => (d.tree model first last : ParseTree S))
      (Derivation.weight model) part
  rw [hpart]
  exact ⟨kept, hselect, hkept.of_suffices (hsuffices.trans hexpand), hsorted⟩

end Span

/-! ## The table of trees -/

theorem treesThrough_congr {first last : Nat} {back : Backpointer S}
    {trees trees' : Symbol → (first last : Nat) → List (ParseTree S)}
    (hsplit : ∀ rule, back.rule = .binary rule → back.split < last - first)
    (h : ∀ x s e, s ≤ e → e ≤ last → e - s < last - first →
      trees x s e = trees' x s e) :
    treesThrough trees first last back = treesThrough trees' first last back := by
  unfold treesThrough
  split
  · rfl
  · rename_i rule hrule
    have hlt := hsplit rule hrule
    rw [h rule.left first (first + back.split) (by omega) (by omega) (by omega),
      h rule.right (first + back.split + 1) last (by omega) (Nat.le_refl _) (by omega)]

namespace InsidePass

theorem sortedBackpointers_of_some {pass : InsidePass S} {x : Symbol}
    {first last : Nat} {heap : BoundedHeap (Backpointer S) S}
    (hheap : (pass.cells.get first last).backpointers.get? x = some heap) :
    pass.sortedBackpointers x first last = heap.sorted.map Prod.fst := by
  simp [sortedBackpointers, InsideCell.sortedBackpointers, hheap]

theorem sortedBackpointers_of_none {pass : InsidePass S} {x : Symbol}
    {first last : Nat}
    (hheap : (pass.cells.get first last).backpointers.get? x = none) :
    pass.sortedBackpointers x first last = [] := by
  simp [sortedBackpointers, InsideCell.sortedBackpointers, hheap]

variable (model : Model K) (width : Nat) (width_pos : 0 < width) (input : List Symbol)
  {first last count : Nat}

/-- The back-pointers that are kept for a symbol apply rules of the policy to it. -/
theorem allowed_of_mem_sortedBackpointers (hspan : first ≤ last)
    (hlast : last < input.length) {x : Symbol} {back : Backpointer S}
    (hback : back ∈ (run model width width_pos input : InsidePass S).sortedBackpointers
      x first last) :
    back.Allowed model input first last ∧ back.rule.parent = x := by
  rw [sortedBackpointers, get_cells_run model width width_pos input hspan hlast] at hback
  obtain ⟨hinside, hparent⟩ := List.mem_filter.mp
    (InsideCell.sortedBackpointers_subset width width_pos _ x hback)
  exact ⟨allowed_of_mem_insideBackpointers hinside, of_decide_eq_true hparent⟩

theorem split_lt_of_mem_sortedBackpointers (hspan : first ≤ last)
    (hlast : last < input.length) {x : Symbol} {back : Backpointer S}
    (hback : back ∈ (run model width width_pos input : InsidePass S).sortedBackpointers
      x first last)
    {rule : BinaryRule} (hrule : back.rule = .binary rule) :
    back.split < last - first := by
  obtain ⟨hallowed, _⟩ :=
    allowed_of_mem_sortedBackpointers model width width_pos input hspan hlast hback
  cases hallowed with
  | terminal _ => contradiction
  | binary hsplit _ => exact hsplit

theorem get_treeTable_run (count_pos : 0 < count) (hspan : first ≤ last)
    (hlast : last < input.length) :
    ((run model width width_pos input : InsidePass S).treeTable count count_pos).get
        first last =
      ((run model width width_pos input).cells.get first
        last).backpointers.mapValues fun heap =>
          selectTrees count count_pos
            (((heap.sorted.map Prod.fst).take count).flatMap
              (treesThrough ((run model width width_pos input).bestTrees count
                count_pos) first last)) := by
  have hsize := size_cells_run (S := S) model width width_pos input
  refine SpanTable.get_sweep_widening hspan (by rw [hsize]; exact hlast) ?_
  intro look look' hlook
  apply OrderedTable.mapValues_congr
  intro x heap hheap
  rw [← sortedBackpointers_of_some hheap]
  congr 1
  apply List.flatMap_congr
  intro back hback
  apply treesThrough_congr
  · intro rule hrule
    exact split_lt_of_mem_sortedBackpointers model width width_pos input hspan hlast
      (List.mem_of_mem_take hback) hrule
  · intro y s e hse he hlt
    rw [hlook s e hse (by rw [hsize]; omega) hlt]

/-- The best trees of a span are selected from those through its best
back-pointers, which are made of the best trees of narrower spans. -/
theorem bestTrees_run (count_pos : 0 < count) (hspan : first ≤ last)
    (hlast : last < input.length) (x : Symbol) :
    (run model width width_pos input : InsidePass S).bestTrees count count_pos x first
        last =
      selectTrees count count_pos
        ((((run model width width_pos input).sortedBackpointers x first
          last).take count).flatMap
            (treesThrough
              ((run model width width_pos input).bestTrees count count_pos) first
              last)) := by
  rw [bestTrees, get_treeTable_run model width width_pos input count_pos hspan hlast,
    OrderedTable.get?_mapValues]
  cases hheap : ((run model width width_pos input : InsidePass S).cells.get first
      last).backpointers.get? x with
  | some heap =>
      rw [sortedBackpointers_of_some hheap, Option.map_some, Option.getD_some]
  | none =>
      rw [sortedBackpointers_of_none hheap, List.take_nil, List.flatMap_nil,
        selectTrees_nil]
      rfl

variable [SelectiveWeights K S]

theorem sumsNarrower_run (hpolicy : model.policy.Covering) (hlast : last < input.length) :
    SumsNarrower model input (run model width width_pos input : InsidePass S).inside
      first last := by
  intro split hsplit x
  constructor
  · exact get_inside_run_eq_derivationSum model hpolicy width width_pos input
      (by omega) (by omega) x
  · exact get_inside_run_eq_derivationSum model hpolicy width width_pos input
      (by omega) hlast x

theorem bestTrees_spellsHeaviest (hpolicy : model.policy.Covering)
    (count_pos : 0 < count) (hcount : count ≤ width) (hspan : first ≤ last)
    (hlast : last < input.length) (x : Symbol) :
    SpellsHeaviest model input x first last count
      ((run model width width_pos input : InsidePass S).bestTrees count count_pos x first
        last) := by
  induction hwidth : last - first using Nat.strong_induction_on
    generalizing first last x with
  | _ w ih =>
      rw [bestTrees_run model width width_pos input count_pos hspan hlast]
      obtain ⟨hkept, hsorted⟩ :=
        heaviest_sortedBackpointers (S := S) model width width_pos input hspan hlast x
      apply selectTrees_spellsHeaviest hpolicy count_pos hspan hlast
        (sumsNarrower_run model width width_pos input hpolicy hlast)
        (hkept.take hsorted hcount)
      intro y s e hse he hlt
      exact ih (e - s) (by omega) hse he y rfl

end InsidePass

theorem SpellsHeaviest.prefix_weights [SelectiveWeights K S] {model : Model K}
    {input : List Symbol} {x : Symbol} {first last fewer count : Nat}
    {trees trees' : List (ParseTree S)} (hfewer : fewer ≤ count)
    (h : SpellsHeaviest model input x first last fewer trees)
    (h' : SpellsHeaviest model input x first last count trees') :
    trees.map ParseTree.weight <+: trees'.map ParseTree.weight := by
  obtain ⟨kept, rfl, hkept, hsorted⟩ := h
  obtain ⟨kept', rfl, hkept', hsorted'⟩ := h'
  have hantisymm : ∀ a b : S, Ranked.le a b = true → Ranked.le b a = true → a = b :=
    fun _ _ => MaximumWeights.le_antisymm
  have hweights := hkept.map_weight_eq_take hsorted hantisymm
  have hweights' := hkept'.map_weight_eq_take hsorted' hantisymm
  simp only [List.map_map, Function.comp_def, Derivation.weight_tree]
  rw [hweights, hweights']
  exact List.take_prefix_take_left hfewer

/-! ## Reading a filled chart -/

namespace Chart

theorem parseInside_eq (model : Model K) (width : Nat) (width_pos : 0 < width)
    {input : List Symbol} (hinput : input ≠ []) :
    (parseInside model width width_pos input : Except ChartError (Chart S)) =
      .ok ⟨input.length, width, width_pos,
        .insideDone (.run model width width_pos input)⟩ :=
  fillInside_blank model width width_pos hinput

/-- The inside weights of the whole input sum up its derivations. -/
theorem exists_parseInside [LawfulWeights K S] {model : Model K}
    (hpolicy : model.policy.Lawful) (width : Nat) (width_pos : 0 < width)
    {input : List Symbol} (hinput : input ≠ []) :
    ∃ (exact : Chart S) (weights : SymbolWeights S),
      parseInside model width width_pos input = .ok exact ∧
        exact.inside 0 (input.length - 1) = .ok weights ∧
        ∀ x, weights.get x = derivationSum model input x 0 (input.length - 1) := by
  have hpos := List.length_pos_of_ne_nil hinput
  have hlast : input.length - 1 < input.length := by omega
  refine ⟨_, (InsidePass.run model width width_pos input).inside 0 (input.length - 1),
    parseInside_eq model width width_pos hinput, ?_, ?_⟩
  · exact answer_of_le (Nat.zero_le _) hlast _
  · exact InsidePass.get_inside_run_eq_derivationSum model hpolicy width width_pos input
      (Nat.zero_le _) hlast

theorem backpointers_eq {chart : Chart S} {pass : InsidePass S} {first last : Nat}
    (hpass : chart.insidePass = .ok pass)
    (hselective : WeightAlgebra.selective S = true) (hspan : first ≤ last)
    (hlast : last < chart.length) (x : Symbol) :
    chart.backpointers x first last = .ok (pass.sortedBackpointers x first last) := by
  unfold backpointers requireSelective
  rw [if_pos hselective, hpass]
  exact answer_of_le hspan hlast _

theorem bestTreesWithSpan_eq {chart : Chart S} {pass : InsidePass S}
    {first last count : Nat} (hpass : chart.insidePass = .ok pass)
    (hselective : WeightAlgebra.selective S = true) (count_pos : 0 < count)
    (hcount : count ≤ chart.beamWidth) (hspan : first ≤ last)
    (hlast : last < chart.length) (x : Symbol) :
    chart.bestTreesWithSpan x first last count =
      .ok (pass.bestTrees count count_pos x first last) := by
  unfold bestTreesWithSpan requireSelective requireCount
  rw [if_pos hselective, hpass, dif_pos ⟨count_pos, hcount⟩]
  exact answer_of_le hspan hlast _

theorem bestTreesWithSpan_insideDone {length width : Nat} {width_pos : 0 < width}
    {pass : InsidePass S} {first last count : Nat}
    (hselective : WeightAlgebra.selective S = true) (count_pos : 0 < count)
    (hcount : count ≤ width) (hspan : first ≤ last) (hlast : last < length)
    (x : Symbol) :
    (⟨length, width, width_pos, .insideDone pass⟩ : Chart S).bestTreesWithSpan x first
        last count =
      .ok (pass.bestTrees count count_pos x first last) :=
  bestTreesWithSpan_eq rfl hselective count_pos hcount hspan hlast x

/-- A chart over a selective algebra lists the best trees of every span, as many as
are asked for, if they are no more than the back-pointers it keeps. -/
theorem bestTrees_are_best [SelectiveWeights K S] (model : Model K)
    (hpolicy : model.policy.Lawful) (width : Nat) (width_pos : 0 < width)
    (input : List Symbol) (hinput : input ≠ []) :
    ∃ chart : Chart S, parseInside model width width_pos input = .ok chart ∧
      (∀ x count, chart.bestTrees x count =
        chart.bestTreesWithSpan x 0 (input.length - 1) count) ∧
      ∀ x first last, first ≤ last → last < input.length →
        IsListing (nonzeroDerivations S model input x first last)
            (fun d => Derives model.policy input x first last d ∧
              (d.weight model : S) ≠ 0) ∧
          ∀ count, 0 < count → count ≤ width → ∃ trees,
            chart.bestTreesWithSpan x first last count = .ok trees ∧
              AreBestTrees model input x first last count trees ∧
              ∀ more, count ≤ more → more ≤ width → ∃ trees',
                chart.bestTreesWithSpan x first last more = .ok trees' ∧
                  trees.map ParseTree.weight <+: trees'.map ParseTree.weight := by
  refine ⟨_, parseInside_eq model width width_pos hinput, fun _ _ => rfl, ?_⟩
  intro x first last hspan hlast
  refine ⟨isListing_nonzeroDerivations hpolicy input x first last, ?_⟩
  intro count count_pos hcount
  have hbest := InsidePass.bestTrees_spellsHeaviest (S := S) model width width_pos input
    hpolicy count_pos hcount hspan hlast x
  refine ⟨_, bestTreesWithSpan_insideDone MaximumWeights.selective count_pos hcount
    hspan hlast x, hbest.areBestTrees hpolicy, ?_⟩
  intro more hfewer hmore
  have more_pos : 0 < more := Nat.lt_of_lt_of_le count_pos hfewer
  refine ⟨_, bestTreesWithSpan_insideDone MaximumWeights.selective more_pos hmore
    hspan hlast x, ?_⟩
  exact hbest.prefix_weights hfewer
    (InsidePass.bestTrees_spellsHeaviest model width width_pos input hpolicy more_pos
      hmore hspan hlast x)

/-- Two words may be taken as one entry: of four derivations three are asked for. -/
theorem bestTrees_are_best_three_words :
    ∃ chart : Chart (MaxProduct Nat),
      parseInside
          ⟨Policy.scan [⟨⟨0⟩, ⟨0⟩, ⟨0⟩, none⟩]
            [⟨⟨0⟩, [⟨1⟩], none⟩, ⟨⟨0⟩, [⟨1⟩, ⟨1⟩], none⟩], fun _ => 2⟩ 3
          (by decide) [⟨1⟩, ⟨1⟩, ⟨1⟩] = .ok chart ∧
        ∃ trees, chart.bestTreesWithSpan ⟨0⟩ 0 2 3 = .ok trees ∧
          trees.length = 3 ∧ trees.Nodup := by
  obtain ⟨chart, hparse, _, htrees⟩ :=
    bestTrees_are_best (S := MaxProduct Nat)
      ⟨Policy.scan [⟨⟨0⟩, ⟨0⟩, ⟨0⟩, none⟩]
        [⟨⟨0⟩, [⟨1⟩], none⟩, ⟨⟨0⟩, [⟨1⟩, ⟨1⟩], none⟩], fun _ => 2⟩
      (Policy.scan_lawful (by decide) (by decide)) 3 (by decide) [⟨1⟩, ⟨1⟩, ⟨1⟩]
      (by decide)
  obtain ⟨_, hcount⟩ := htrees ⟨0⟩ 0 2 (by decide) (by decide)
  obtain ⟨trees, hread, hbest, _⟩ := hcount 3 (by decide) (by decide)
  refine ⟨chart, hparse, trees, hread, ?_, hbest.nodup⟩
  rw [hbest.length_eq]
  decide +kernel

end Chart

end WeightedParsing
