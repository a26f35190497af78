import WeightedParsing.Proofs.Chart.BestTree
import WeightedParsing.Proofs.Chart.Extraction
import WeightedParsing.Proofs.Chart.Requests

/-!
# One best tree

There are two ways to the best tree of an entry.  One follows the first back-pointer from
the top down; the other selects the best trees of ever wider spans, here one of each.  The
two meet: a selection from one tree is that tree, whatever it weighs, so that nothing is
ever compared once the first back-pointer is taken.  Trees of equal weight are therefore
told apart in the same way, and nothing is asked of how weights add, multiply or compare.
-/

namespace WeightedParsing

variable {K S : Type} [WeightAlgebra K S]

theorem selectTrees_singleton {count : Nat} (count_pos : 0 < count) (tree : ParseTree S)
    (weight : S) : selectTrees count count_pos [(tree, weight)] = [tree] := by
  have hroom : (BoundedHeap.empty count count_pos : BoundedHeap (ParseTree S) S).accepts
      weight = true := by
    simp [BoundedHeap.accepts, BoundedHeap.isFull, BoundedHeap.size, BoundedHeap.empty,
      count_pos.ne']
  have hsize := BoundedHeap.size_grow (.empty count count_pos) tree weight
  have hheld := BoundedHeap.grow_perm (.empty count count_pos) tree weight
  have hoffer : (BoundedHeap.empty count count_pos).offerAll [(tree, weight)] =
      (BoundedHeap.empty count count_pos).grow tree weight := by
    change (BoundedHeap.empty count count_pos).offer tree weight = _
    rw [BoundedHeap.offer, BoundedHeap.offer?, if_pos hroom, Option.getD_some,
      BoundedHeap.insert_eq, hsize, if_neg]
    exact Nat.not_lt.mpr count_pos
  have hdrain := (BoundedHeap.drainDescending_perm _).trans hheld.symm
  rw [selectTrees, hoffer, List.perm_singleton.mp hdrain]
  rfl

/-- At most one tree is selected from those over at most one tree on either side. -/
theorem selectTrees_joins {count : Nat} (count_pos : 0 < count) (rule : BinaryRule)
    (ruleWeight : S) (left right : Option (ParseTree S)) :
    selectTrees count count_pos
        (left.toList.flatMap fun l => right.toList.map fun r =>
          (.join rule ruleWeight l r, ruleWeight * l.weight * r.weight)) =
      (match left, right with
        | some l, some r => some (ParseTree.join rule ruleWeight l r)
        | _, _ => none).toList := by
  cases left with
  | none => exact selectTrees_nil count_pos
  | some l =>
      rw [Option.toList_some, List.flatMap_singleton]
      cases right with
      | none => exact selectTrees_nil count_pos
      | some r => exact selectTrees_singleton count_pos (.join rule ruleWeight l r) _

namespace InsidePass

variable (model : Model K) (width : Nat) (width_pos : 0 < width) (input : List Symbol)
  {first last : Nat}

/-- Selecting one tree of every entry finds the tree that the first back-pointers lead
to. -/
theorem bestTrees_one_run (hspan : first ≤ last) (hlast : last < input.length)
    (x : Symbol) :
    (run model width width_pos input : InsidePass S).bestTrees 1 Nat.one_pos x first last =
      ((run model width width_pos input).bestTree x first last).toList := by
  induction hwidth : last - first using Nat.strong_induction_on
    generalizing first last x with
  | _ w ih =>
      rw [bestTrees_run model width width_pos input Nat.one_pos hspan hlast, List.take_one,
        bestTree, followFirst]
      cases hhead : ((run model width width_pos input : InsidePass S).sortedBackpointers x
          first last).head? with
      | none => exact selectTrees_nil Nat.one_pos
      | some pointer =>
          rw [Option.toList_some, List.flatMap_singleton]
          rcases pointer with ⟨split, rule | rule, weight, ruleWeight⟩
          · have hsplit : split < last - first :=
              split_lt_of_mem_sortedBackpointers model width width_pos input hspan hlast
                (List.mem_of_mem_head? hhead) rfl
            have hleft := @ih (first + split - first) (by omega) first (first + split)
              (by omega) (by omega) rule.left rfl
            have hright := @ih (last - (first + split + 1)) (by omega) (first + split + 1) last
              (by omega) hlast rule.right rfl
            rw [treesThrough]
            dsimp only
            rw [dif_pos hsplit, hleft, hright]
            exact selectTrees_joins Nat.one_pos rule ruleWeight _ _
          · exact selectTrees_singleton Nat.one_pos (.leaf rule ruleWeight first last)
              ruleWeight

end InsidePass

namespace Chart

/-- Asked for one tree of any entry, the chart lists the best tree of it, if it has one. -/
def ListsBestTree (chart : Chart S) : Prop :=
  ∀ x first last, first ≤ last → last < chart.length →
    ∃ best, chart.bestTreeWithSpan x first last = .ok best ∧
      chart.bestTreesWithSpan x first last 1 = .ok best.toList

theorem FilledFrom.listsBestTree {chart : Chart S} {model : Model K} {input : List Symbol}
    (hselective : WeightAlgebra.selective S = true)
    (hchart : chart.FilledFrom model input) : chart.ListsBestTree := by
  intro x first last hspan hlast
  refine ⟨_, bestTreeWithSpan_eq hchart.insidePass_eq hselective hspan hlast x, ?_⟩
  rw [bestTreesWithSpan_eq hchart.insidePass_eq hselective Nat.one_pos chart.beamWidth_pos
    hspan hlast x]
  rw [← hchart.length_eq] at hlast
  rw [InsidePass.bestTrees_one_run model _ _ input hspan hlast x]

/-- Over a selective algebra a chart lists the best tree when it is asked for one, ties
included, from the inside pass on. -/
theorem single_tree_is_best [Scalar K] (hselective : WeightAlgebra.selective S = true)
    {chart filled : Chart S} {model : Model K} {input : List Symbol}
    (hfill : chart.fillInside model input = .ok filled) :
    filled.ListsBestTree ∧
      ∀ (later : Model K) (prior : RootPrior K) (full : Chart S),
        filled.fillOutside later prior = .ok full → full.ListsBestTree := by
  have hfilled := filledFrom_of_fillInside hfill
  constructor
  · exact hfilled.listsBestTree hselective
  · intro later prior full hfull
    exact (hfilled.fillOutside hfull).listsBestTree hselective

/-- Two of the derivations of three words weigh the most.  Of these one tree is listed
alone, and it is the best tree. -/
theorem single_tree_is_best_three_words :
    ∃ (chart : Chart (MaxProduct Nat)) (tree : ParseTree (MaxProduct Nat))
        (two : List (ParseTree (MaxProduct Nat))),
      (blank 3 2 Nat.two_pos).fillInside compoundModel [⟨1⟩, ⟨1⟩, ⟨1⟩] = .ok chart ∧
        chart.bestTreeWithSpan ⟨0⟩ 0 2 = .ok (some tree) ∧
          chart.bestTreesWithSpan ⟨0⟩ 0 2 1 = .ok [tree] ∧
            chart.bestTreesWithSpan ⟨0⟩ 0 2 2 = .ok two ∧
              two.map ParseTree.weight = [tree.weight, tree.weight] := by
  have hfill := fillInside_blank (S := MaxProduct Nat) compoundModel 2 Nat.two_pos
    (show ([⟨1⟩, ⟨1⟩, ⟨1⟩] : List Symbol) ≠ [] by decide)
  obtain ⟨best, hbest, hone⟩ := (single_tree_is_best rfl hfill).1 ⟨0⟩ 0 2 (by decide)
    (by decide)
  have hread := hbest
  rw [bestTreeWithSpan_insideDone rfl (by decide) (by decide)] at hread
  have hweight : best.map (fun tree => tree.weight.value) = some 5 := by
    rw [← Except.ok.inj hread]
    decide +kernel
  obtain ⟨tree, rfl, htree⟩ := Option.map_eq_some_iff.mp hweight
  refine ⟨_, tree, _, hfill, hbest, hone,
    bestTreesWithSpan_insideDone rfl Nat.two_pos (Nat.le_refl 2) (by decide) (by decide) ⟨0⟩,
    ?_⟩
  have hvalue : tree.weight = ⟨5⟩ := MaxProduct.ext_value htree
  rw [hvalue]
  apply List.map_injective_iff.mpr (fun a b => MaxProduct.ext_value)
  rw [List.map_map]
  decide +kernel

end Chart

end WeightedParsing
