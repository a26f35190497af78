import WeightedParsing.Beam
import WeightedParsing.Proofs.Chart.TreeImage

/-!
# Images of beams

A beam is a heap of partial trees that name their subtrees by position.  A homomorphism
that embeds the one order in the other leaves every entry where it is, so that the
entries of both beams name the same subtrees.
-/

namespace WeightedParsing

/-- The image of a partial tree; it names the same subtrees. -/
def BeamEntry.map {S T : Type} (h : S → T) : BeamEntry S → BeamEntry T
  | terminal rule ruleWeight => terminal rule (h ruleWeight)
  | binary rule ruleWeight split left right =>
      binary rule (h ruleWeight) split left right

@[simp] theorem BeamEntry.root_map {S T : Type} (h : S → T) (entry : BeamEntry S) :
    (entry.map h).root = entry.root := by
  cases entry <;> rfl

def BeamCell.map {S T : Type} (h : S → T) (cell : BeamCell S) : BeamCell T :=
  ⟨cell.heap.map (BeamEntry.map h) h, cell.overflowed⟩

section Images

variable {K S T : Type} [Scalar K] [WeightAlgebra K S] [WeightAlgebra K T] {h : S → T}

/-! ## One span -/

theorem BeamCell.withRoot_map (cell : BeamCell S) (root : Symbol) :
    (cell.map h).withRoot root = (cell.withRoot root).map (Prod.map id h) := by
  unfold withRoot map
  rw [BoundedHeap.toList_map, List.zipIdx_map, List.filterMap_map, List.map_filterMap]
  congr 1
  funext entry
  by_cases hroot : entry.1.1.root = root
  · simp [hroot]
  · simp [hroot]

variable {model : Model K}

theorem terminalCandidates_map (hom : WeightHom h) (hmodel : model.Nonneg)
    (input : List Symbol) (first last : Nat) :
    terminalCandidates model input first last =
      (terminalCandidates model input first last).map (Prod.map (BeamEntry.map h) h) := by
  unfold terminalCandidates
  rw [List.map_map]
  simp only [hom.map_weigh hmodel]
  rfl

variable [ExactZero K S] [ExactZero K T]

theorem BeamCell.offer_map (hom : WeightHom h) (hembeds : Ranked.Embeds h)
    (cell : BeamCell S) (candidate : BeamEntry S × S) :
    (cell.map h).offer (candidate.1.map h, h candidate.2) =
      (cell.offer candidate).map h := by
  unfold offer
  rw [hom.isZero_map]
  split
  · rfl
  · unfold map
    rw [BoundedHeap.offer_map hembeds, BoundedHeap.isFull_map]

theorem BeamCell.foldl_offer_map (hom : WeightHom h) (hembeds : Ranked.Embeds h)
    (candidates : List (BeamEntry S × S)) (cell : BeamCell S) :
    (candidates.map (Prod.map (BeamEntry.map h) h)).foldl offer (cell.map h) =
      (candidates.foldl offer cell).map h := by
  rw [List.foldl_map]
  apply List.foldl_hom (map h)
  intro cell candidate
  exact offer_map hom hembeds cell candidate

theorem pairCandidates_map (hom : WeightHom h) (hmodel : model.Nonneg)
    (left right : BeamCell S) (split : Nat) (rule : BinaryRule) :
    pairCandidates model (left.map h) (right.map h) split rule =
      (pairCandidates model left right split rule).map (Prod.map (BeamEntry.map h) h) := by
  unfold pairCandidates
  simp only [hom.map_weigh hmodel, hom.isZero_map]
  split
  · rfl
  · simp only [BeamCell.withRoot_map, List.flatMap_map, List.map_flatMap, List.map_map,
      Function.comp_def, Prod.map_fst, Prod.map_snd, id_eq, Prod.map_apply, BeamEntry.map,
      hom.map_mul]

theorem splitCandidates_map (hom : WeightHom h) (hmodel : model.Nonneg)
    (beam : (first last : Nat) → BeamCell S) (first last split : Nat) :
    splitCandidates model (fun s e => (beam s e).map h) first last split =
      (splitCandidates model beam first last split).map
        (Prod.map (BeamEntry.map h) h) := by
  unfold splitCandidates
  simp only [BeamCell.map, BoundedHeap.isEmpty_map]
  split
  · rfl
  · rw [List.map_flatMap]
    congr 1
    funext rule
    exact pairCandidates_map hom hmodel _ _ _ rule

theorem fillBeamCell_map (hom : WeightHom h) (hembeds : Ranked.Embeds h)
    (hmodel : model.Nonneg) (beamSize : Nat) (beamSize_pos : 0 < beamSize)
    (input : List Symbol) (beam : (first last : Nat) → BeamCell S) (first last : Nat) :
    fillBeamCell model beamSize beamSize_pos input (fun s e => (beam s e).map h) first
        last =
      (fillBeamCell model beamSize beamSize_pos input beam first last).map h := by
  have hempty : (BeamCell.empty beamSize beamSize_pos : BeamCell S).map h =
      .empty beamSize beamSize_pos := by
    simp only [BeamCell.map, BeamCell.empty, BoundedHeap.empty_map]
  unfold fillBeamCell
  rw [← hempty, terminalCandidates_map hom hmodel, BeamCell.foldl_offer_map hom hembeds]
  apply List.foldl_hom (BeamCell.map h)
  intro cell split
  rw [splitCandidates_map hom hmodel, BeamCell.foldl_offer_map hom hembeds]

/-! ## All spans -/

namespace BeamChart

variable {beamSize : Nat} {beamSize_pos : 0 < beamSize} {input : List Symbol}

theorem get_cells_run_map (hom : WeightHom h) (hembeds : Ranked.Embeds h)
    (hmodel : model.Nonneg) (first last : Nat) :
    (run model beamSize beamSize_pos input : BeamChart T).cells.get first last =
      ((run model beamSize beamSize_pos input : BeamChart S).cells.get first last).map
        h := by
  unfold run
  refine SpanTable.get_sweep_related
    (R := fun (cell : BeamCell S) (cell' : BeamCell T) => cell' = cell.map h) ?_ ?_
    (List.range input.length) first last
  · simp only [BeamCell.map, BeamCell.empty, BoundedHeap.empty_map]
  · intro look look' hlook s e
    obtain rfl : look' = fun s e => (look s e).map h :=
      funext fun s => funext fun e => hlook s e
    exact fillBeamCell_map hom hembeds hmodel beamSize beamSize_pos input look s e

theorem isExact_run_map (hom : WeightHom h) (hembeds : Ranked.Embeds h)
    (hmodel : model.Nonneg) :
    (run model beamSize beamSize_pos input : BeamChart T).isExact =
      (run model beamSize beamSize_pos input : BeamChart S).isExact := by
  unfold isExact
  simp only [get_cells_run_map hom hembeds hmodel]
  rfl

theorem treeAt_run_map (hom : WeightHom h) (hembeds : Ranked.Embeds h)
    (hmodel : model.Nonneg) (first last position : Nat) :
    (run model beamSize beamSize_pos input : BeamChart T).treeAt first last position =
      ((run model beamSize beamSize_pos input : BeamChart S).treeAt first last
        position).map (ParseTree.map h) := by
  induction hwidth : last - first using Nat.strong_induction_on
    generalizing first last position with
  | _ width ih =>
      rw [treeAt, treeAt, get_cells_run_map hom hembeds hmodel, BeamCell.map,
        BoundedHeap.get?_map]
      cases ((run model beamSize beamSize_pos input : BeamChart S).cells.get first
          last).heap.get? position with
      | none => rfl
      | some entry =>
          obtain ⟨entry, weight⟩ := entry
          cases entry with
          | terminal rule ruleWeight => rfl
          | binary rule ruleWeight split i j =>
              simp only [Option.map_some, Prod.map_apply, BeamEntry.map]
              by_cases hsplit : first ≤ split ∧ split < last
              · rw [dif_pos hsplit, dif_pos hsplit,
                  ih (split - first) (by omega) _ _ _ rfl,
                  ih (last - (split + 1)) (by omega) _ _ _ rfl]
                cases treeAt (run model beamSize beamSize_pos input : BeamChart S) first
                    split i with
                | none => rfl
                | some left =>
                    cases treeAt (run model beamSize beamSize_pos input : BeamChart S)
                        (split + 1) last j with
                    | none => rfl
                    | some right => exact congrArg some (ParseTree.join_map hom ..)
              · rw [dif_neg hsplit, dif_neg hsplit]
                rfl

/-- Weighting trees by a prior, dropping those of weight zero and sorting the others. -/
theorem sortDescending_multiply_map (hom : WeightHom h) (hembeds : Ranked.Embeds h)
    {prior : RootPrior K} (hprior : prior.Nonneg) (held : List (ParseTree S)) :
    Ranked.sortDescending ParseTree.weight
        (((held.map (ParseTree.map h)).map fun tree =>
          tree.multiply (prior.weight tree.root : T)).filter
            fun tree => !WeightAlgebra.isZero tree.weight) =
      (Ranked.sortDescending ParseTree.weight
        ((held.map fun tree => tree.multiply (prior.weight tree.root : S)).filter
          fun tree => !WeightAlgebra.isZero tree.weight)).map (ParseTree.map h) := by
  have hmultiply : (held.map (ParseTree.map h)).map (fun tree =>
        tree.multiply (prior.weight tree.root : T)) =
      (held.map fun tree => tree.multiply (prior.weight tree.root : S)).map
        (ParseTree.map h) := by
    rw [List.map_map, List.map_map]
    apply List.map_congr_left
    intro tree _
    rw [Function.comp_apply, Function.comp_apply, ParseTree.root_map,
      hom.map_prior hprior, ParseTree.multiply_map hom]
  rw [hmultiply, List.filter_map]
  simp only [Function.comp_def, ParseTree.weight_map, hom.isZero_map]
  exact Ranked.sortDescending_map hembeds ParseTree.weight_map _

theorem trees_run_map (hom : WeightHom h) (hembeds : Ranked.Embeds h)
    (hmodel : model.Nonneg) {prior : RootPrior K} (hprior : prior.Nonneg) :
    (run model beamSize beamSize_pos input : BeamChart T).trees prior =
      ((run model beamSize beamSize_pos input : BeamChart S).trees prior).map
        (ParseTree.map h) := by
  let source : BeamChart S := run model beamSize beamSize_pos input
  let image : BeamChart T := run model beamSize beamSize_pos input
  have hlength : image.length = source.length := rfl
  have hheld : (List.range (image.cells.get 0 (source.length - 1)).heap.size).filterMap
        (image.treeAt 0 (source.length - 1)) =
      ((List.range (source.cells.get 0 (source.length - 1)).heap.size).filterMap
        (source.treeAt 0 (source.length - 1))).map (ParseTree.map h) := by
    rw [get_cells_run_map hom hembeds hmodel, BeamCell.map, BoundedHeap.size_map,
      List.map_filterMap]
    congr 1
    funext position
    exact treeAt_run_map hom hembeds hmodel 0 _ position
  change image.trees prior = (source.trees prior).map (ParseTree.map h)
  unfold trees
  rw [hlength]
  split
  · rfl
  · dsimp only
    rw [hheld]
    exact sortDescending_multiply_map hom hembeds hprior _

end BeamChart

end Images

end WeightedParsing
