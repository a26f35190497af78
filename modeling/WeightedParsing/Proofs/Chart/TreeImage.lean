import WeightedParsing.Chart.Extraction
import WeightedParsing.Proofs.BoundedHeap.Image
import WeightedParsing.Proofs.Chart.Image

/-!
# Images of trees

Which trees a chart yields depends on which back-pointers its heaps keep and how they
rank.  A homomorphism that embeds the one order in the other keeps all of that, so that
the trees of both charts apply the same rules at the same splits.
-/

namespace WeightedParsing

/-- The image of a tree; only its weights change. -/
def ParseTree.map {S T : Type} (h : S → T) : ParseTree S → ParseTree T
  | leaf rule weight first last => leaf rule (h weight) first last
  | node parent ruleType left right weight =>
      node parent ruleType (left.map h) (right.map h) (h weight)

namespace ParseTree

variable {S T : Type} {h : S → T}

@[simp] theorem weight_map (tree : ParseTree S) : (tree.map h).weight = h tree.weight := by
  cases tree <;> rfl

@[simp] theorem root_map (tree : ParseTree S) : (tree.map h).root = tree.root := by
  cases tree <;> rfl

variable {K : Type} [Scalar K] [WeightAlgebra K S] [WeightAlgebra K T]

theorem join_map (hom : WeightHom h) (rule : BinaryRule) (ruleWeight : S)
    (left right : ParseTree S) :
    join rule (h ruleWeight) (left.map h) (right.map h) =
      (join rule ruleWeight left right).map h := by
  simp only [join, map, weight_map, hom.map_mul]

theorem multiply_map (hom : WeightHom h) (factor : S) (tree : ParseTree S) :
    (tree.map h).multiply (h factor) = (tree.multiply factor).map h := by
  cases tree <;> simp only [multiply, map, hom.map_mul]

end ParseTree

/-- The image of a cell, with the images of its back-pointers in the same heaps. -/
def InsideCell.map {S T : Type} (h : S → T) (cell : InsideCell S) : InsideCell T :=
  ⟨cell.weights.map h, cell.backpointers.mapValues (BoundedHeap.map (Backpointer.map h) h)⟩

section Images

variable {K S T : Type} [WeightAlgebra K S] [WeightAlgebra K T] {h : S → T}

/-! ## One span -/

/-- Selecting looks at the weights that come with the trees, and not at the trees. -/
theorem selectTrees_map (hembeds : Ranked.Embeds h) {f : ParseTree S → ParseTree T}
    (count : Nat) (count_pos : 0 < count) (trees : List (ParseTree S × S)) :
    selectTrees count count_pos (trees.map (Prod.map f h)) =
      (selectTrees count count_pos trees).map f := by
  unfold selectTrees
  rw [← BoundedHeap.empty_map count count_pos, BoundedHeap.offerAll_map hembeds,
    BoundedHeap.drainDescending_map hembeds, List.map_map, List.map_map]
  rfl

theorem InsideCell.sortedBackpointers_map (hembeds : Ranked.Embeds h)
    (cell : InsideCell S) (x : Symbol) :
    (cell.map h).sortedBackpointers x =
      (cell.sortedBackpointers x).map (Backpointer.map h) := by
  simp only [sortedBackpointers, map, OrderedTable.get?_mapValues]
  cases cell.backpointers.get? x with
  | none => rfl
  | some heap => simp [BoundedHeap.sorted_map hembeds]

variable [Scalar K]

theorem followFirst_map (hom : WeightHom h)
    {back : Symbol → (first last : Nat) → Option (Backpointer S)}
    {back' : Symbol → (first last : Nat) → Option (Backpointer T)}
    (hback : ∀ x s e, back' x s e = (back x s e).map (Backpointer.map h))
    (root : Symbol) (first last : Nat) :
    followFirst back' root first last =
      (followFirst back root first last).map (ParseTree.map h) := by
  induction hwidth : last - first using Nat.strong_induction_on
    generalizing root first last with
  | _ width ih =>
      rw [followFirst, followFirst, hback]
      cases back root first last with
      | none => rfl
      | some pointer =>
          cases hrule : pointer.rule with
          | terminal rule => simp [Backpointer.map, hrule, ParseTree.map]
          | binary rule =>
              simp only [Option.map_some, Backpointer.map, hrule]
              by_cases hsplit : pointer.split < last - first
              · rw [dif_pos hsplit, dif_pos hsplit, ih pointer.split (by omega) _ _ _
                    (by omega),
                  ih (last - (first + pointer.split + 1)) (by omega) _ _ _ rfl]
                cases followFirst back rule.left first (first + pointer.split) with
                | none => rfl
                | some left =>
                    cases followFirst back rule.right (first + pointer.split + 1) last with
                    | none => rfl
                    | some right => exact congrArg some (ParseTree.join_map hom ..)
              · rw [dif_neg hsplit, dif_neg hsplit]
                rfl

theorem treesThrough_map (hom : WeightHom h)
    {trees : Symbol → (first last : Nat) → List (ParseTree S)}
    {trees' : Symbol → (first last : Nat) → List (ParseTree T)}
    (htrees : ∀ x s e, trees' x s e = (trees x s e).map (ParseTree.map h))
    (first last : Nat) (pointer : Backpointer S) :
    treesThrough trees' first last (pointer.map h) =
      (treesThrough trees first last pointer).map (Prod.map (ParseTree.map h) h) := by
  unfold treesThrough
  cases hrule : pointer.rule with
  | terminal rule => simp [Backpointer.map, hrule, ParseTree.map]
  | binary rule =>
      simp [Backpointer.map, hrule, htrees, List.map_flatMap, List.flatMap_map,
        Function.comp_def, ParseTree.join_map hom, hom.map_mul]

/-- The trees through the best back-pointers of a heap. -/
theorem selectTrees_flatMap_map (hom : WeightHom h) (hembeds : Ranked.Embeds h)
    {trees : Symbol → (first last : Nat) → List (ParseTree S)}
    {trees' : Symbol → (first last : Nat) → List (ParseTree T)}
    (htrees : ∀ x s e, trees' x s e = (trees x s e).map (ParseTree.map h))
    (count : Nat) (count_pos : 0 < count) (first last : Nat)
    (heap : BoundedHeap (Backpointer S) S) :
    selectTrees count count_pos
        ((((heap.map (Backpointer.map h) h).sorted.map Prod.fst).take count).flatMap
          (treesThrough trees' first last)) =
      (selectTrees count count_pos (((heap.sorted.map Prod.fst).take count).flatMap
        (treesThrough trees first last))).map (ParseTree.map h) := by
  have hkept : (heap.map (Backpointer.map h) h).sorted.map Prod.fst =
      (heap.sorted.map Prod.fst).map (Backpointer.map h) := by
    rw [BoundedHeap.sorted_map hembeds, List.map_map, List.map_map]
    rfl
  rw [hkept, ← List.map_take, List.flatMap_map]
  simp only [treesThrough_map hom htrees]
  rw [← List.map_flatMap, selectTrees_map hembeds]

/-! ## The inside pass with its back-pointers -/

variable [ExactZero K S] [ExactZero K T] {model : Model K} {width : Nat}
  {width_pos : 0 < width} {input : List Symbol}

theorem InsideCell.add_map (hom : WeightHom h) (hembeds : Ranked.Embeds h)
    (cell : InsideCell S) (back : Backpointer S) :
    (cell.map h).add width width_pos (back.map h) =
      (cell.add width width_pos back).map h := by
  unfold add map
  simp only [mk.injEq, ← hom.selective_eq]
  constructor
  · exact SymbolWeights.combine_map hom cell.weights back.rule.parent back.derivationWeight
  · split
    · apply OrderedTable.update_mapValues
      intro old
      cases old with
      | none =>
          have hempty := BoundedHeap.empty_map (f := Backpointer.map h) (h := h) width
            width_pos
          have hoffer := BoundedHeap.offer_map hembeds (.empty width width_pos) back
            back.derivationWeight (f := Backpointer.map h)
          rw [hempty] at hoffer
          exact hoffer
      | some heap => exact BoundedHeap.offer_map hembeds heap back back.derivationWeight
    · rfl

theorem InsideCell.ofBackpointers_map (hom : WeightHom h) (hembeds : Ranked.Embeds h)
    (backs : List (Backpointer S)) :
    ofBackpointers width width_pos (backs.map (Backpointer.map h)) =
      (ofBackpointers width width_pos backs).map h := by
  have hempty : (empty : InsideCell T) = (empty : InsideCell S).map h := rfl
  unfold ofBackpointers
  rw [hempty, List.foldl_map]
  apply List.foldl_hom (map h)
  intro cell back
  exact add_map hom hembeds cell back

namespace InsidePass

theorem get_cells_run_map (hom : WeightHom h) (hembeds : Ranked.Embeds h)
    (hmodel : model.Nonneg) (first last : Nat) :
    (run model width width_pos input : InsidePass T).cells.get first last =
      ((run model width width_pos input : InsidePass S).cells.get first last).map h := by
  change (insideCells model width width_pos input).get first last =
    ((insideCells model width width_pos input).get first last).map h
  unfold insideCells
  refine SpanTable.get_sweep_related
    (R := fun (cell : InsideCell S) (cell' : InsideCell T) => cell' = cell.map h) ?_ ?_
    (List.range input.length) first last
  · rfl
  · intro look look' hlook s e
    have hinside : (fun s e => (look' s e).weights) =
        fun s e => (look s e).weights.map h := by
      funext s e
      rw [hlook]
      rfl
    rw [hinside, insideBackpointers_map hom hmodel,
      InsideCell.ofBackpointers_map hom hembeds]

theorem sortedBackpointers_run_map (hom : WeightHom h) (hembeds : Ranked.Embeds h)
    (hmodel : model.Nonneg) (x : Symbol) (first last : Nat) :
    (run model width width_pos input : InsidePass T).sortedBackpointers x first last =
      ((run model width width_pos input : InsidePass S).sortedBackpointers x first
        last).map (Backpointer.map h) := by
  unfold sortedBackpointers
  rw [get_cells_run_map hom hembeds hmodel, InsideCell.sortedBackpointers_map hembeds]

theorem bestTree_run_map (hom : WeightHom h) (hembeds : Ranked.Embeds h)
    (hmodel : model.Nonneg) (x : Symbol) (first last : Nat) :
    (run model width width_pos input : InsidePass T).bestTree x first last =
      ((run model width width_pos input : InsidePass S).bestTree x first last).map
        (ParseTree.map h) := by
  apply followFirst_map hom
  intro y s e
  rw [sortedBackpointers_run_map hom hembeds hmodel, List.head?_map]

theorem get_treeTable_run_map (hom : WeightHom h) (hembeds : Ranked.Embeds h)
    (hmodel : model.Nonneg) {count : Nat} (count_pos : 0 < count) (first last : Nat) :
    ((run model width width_pos input : InsidePass T).treeTable count count_pos).get first
        last =
      (((run model width width_pos input : InsidePass S).treeTable count count_pos).get
        first last).mapValues (List.map (ParseTree.map h)) := by
  unfold treeTable
  rw [size_cells_run, size_cells_run]
  refine SpanTable.get_sweep_related
    (R := fun (table : OrderedTable Symbol (List (ParseTree S)))
      (table' : OrderedTable Symbol (List (ParseTree T))) =>
        table' = table.mapValues (List.map (ParseTree.map h))) ?_ ?_ _ first last
  · rfl
  · intro look look' hlook s e
    have htrees : ∀ x s e, ((look' s e).get? x).getD [] =
        (((look s e).get? x).getD []).map (ParseTree.map h) := by
      intro x s e
      rw [hlook, OrderedTable.get?_mapValues]
      cases (look s e).get? x <;> rfl
    rw [get_cells_run_map hom hembeds hmodel, InsideCell.map, OrderedTable.mapValues_mapValues,
      OrderedTable.mapValues_mapValues]
    congr 1
    funext heap
    exact selectTrees_flatMap_map hom hembeds htrees count count_pos s e heap

theorem bestTrees_run_map (hom : WeightHom h) (hembeds : Ranked.Embeds h)
    (hmodel : model.Nonneg) {count : Nat} (count_pos : 0 < count) (x : Symbol)
    (first last : Nat) :
    (run model width width_pos input : InsidePass T).bestTrees count count_pos x first
        last =
      ((run model width width_pos input : InsidePass S).bestTrees count count_pos x first
        last).map (ParseTree.map h) := by
  unfold bestTrees
  rw [get_treeTable_run_map hom hembeds hmodel, OrderedTable.get?_mapValues]
  cases (((run model width width_pos input : InsidePass S).treeTable count count_pos).get
    first last).get? x <;> rfl

theorem bestTreesForPrior_run_map (hom : WeightHom h) (hembeds : Ranked.Embeds h)
    (hmodel : model.Nonneg) {count : Nat} (count_pos : 0 < count)
    (prior : SymbolWeights S) :
    (run model width width_pos input : InsidePass T).bestTreesForPrior count count_pos
        (prior.map h) =
      ((run model width width_pos input : InsidePass S).bestTreesForPrior count count_pos
        prior).map (ParseTree.map h) := by
  unfold bestTreesForPrior
  dsimp only
  rw [size_cells_run, size_cells_run, ← selectTrees_map hembeds,
    SymbolWeights.entries_map, List.flatMap_map, List.map_flatMap]
  congr 2
  funext entry
  rw [get_treeTable_run_map hom hembeds hmodel, OrderedTable.get?_mapValues,
    List.map_filterMap]
  cases (((run model width width_pos input : InsidePass S).treeTable count
    count_pos).get 0 _).get? entry.1 with
  | none => rfl
  | some trees =>
      simp only [Option.map_some, Option.getD_some, List.filterMap_map]
      congr 1
      funext tree
      simp only [Function.comp_apply, ParseTree.multiply_map hom, ParseTree.weight_map,
        hom.isZero_map]
      split <;> rfl

end InsidePass

end Images

end WeightedParsing
