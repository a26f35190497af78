import WeightedParsing.Beam
import WeightedParsing.Proofs.BoundedHeap
import WeightedParsing.Proofs.Chart.SpanTable

/-!
# What a beam is offered

The beam of a span is offered its candidates one after the other, those that weigh
nothing apart.  It holds a selection of them, and it overflows exactly when they are more
than fit in.  In a finished chart the candidates come from the finished beams of narrower
spans, for no beam changes once a wider span looks into it.
-/

namespace WeightedParsing

variable {K S : Type} [WeightAlgebra K S]

/-- All candidates for a span, in the order in which its beam is offered them. -/
def beamCandidates (model : Model K) (input : List Symbol)
    (beam : (first last : Nat) → BeamCell S) (first last : Nat) :
    List (BeamEntry S × S) :=
  terminalCandidates model input first last ++
    (List.range (last - first)).flatMap (splitCandidates model beam first last)

/-- The candidates that have weight. -/
def weighted {α : Type} (candidates : List (α × S)) : List (α × S) :=
  candidates.filter fun candidate => !WeightAlgebra.isZero candidate.2

theorem weighted_cons_of_zero {α : Type} {candidate : α × S} {rest : List (α × S)}
    (hzero : WeightAlgebra.isZero candidate.2 = true) :
    weighted (candidate :: rest) = weighted rest := by
  simp [weighted, hzero]

theorem weighted_cons_of_not_zero {α : Type} {candidate : α × S} {rest : List (α × S)}
    (hzero : ¬WeightAlgebra.isZero candidate.2 = true) :
    weighted (candidate :: rest) = candidate :: weighted rest := by
  simp [weighted, hzero]

namespace BeamCell

theorem offer_of_zero {candidate : BeamEntry S × S}
    (hzero : WeightAlgebra.isZero candidate.2 = true) (cell : BeamCell S) :
    cell.offer candidate = cell :=
  if_pos hzero

theorem offer_of_not_zero {candidate : BeamEntry S × S}
    (hzero : ¬WeightAlgebra.isZero candidate.2 = true) (cell : BeamCell S) :
    cell.offer candidate =
      ⟨cell.heap.offer candidate.1 candidate.2,
        cell.overflowed || cell.heap.isFull⟩ :=
  if_neg hzero

theorem heap_foldl_offer (cell : BeamCell S) (candidates : List (BeamEntry S × S)) :
    (candidates.foldl offer cell).heap = cell.heap.offerAll (weighted candidates) := by
  induction candidates generalizing cell with
  | nil => rfl
  | cons candidate rest ih =>
      rw [List.foldl_cons, ih]
      by_cases hzero : WeightAlgebra.isZero candidate.2 = true
      · rw [offer_of_zero hzero, weighted_cons_of_zero hzero]
      · rw [offer_of_not_zero hzero, weighted_cons_of_not_zero hzero]
        rfl

/-- A beam overflows when it is offered more candidates than it has room for. -/
theorem overflowed_foldl_offer [TotallyRanked S] {cell : BeamCell S}
    (hcell : cell.heap.WellFormed) (candidates : List (BeamEntry S × S)) :
    (candidates.foldl offer cell).overflowed = true ↔
      cell.overflowed = true ∨
        cell.heap.capacity < cell.heap.size + (weighted candidates).length := by
  induction candidates generalizing cell with
  | nil =>
      have hsize := hcell.size_le
      change cell.overflowed = true ↔ _ ∨ _ < cell.heap.size + 0
      exact (or_iff_left (by omega)).symm
  | cons candidate rest ih =>
      rw [List.foldl_cons]
      by_cases hzero : WeightAlgebra.isZero candidate.2 = true
      · rw [offer_of_zero hzero, weighted_cons_of_zero hzero]
        exact ih hcell
      · obtain ⟨hoffer, hcapacity, _, _, hlength, _⟩ :=
          BoundedHeap.wellFormed_offer hcell candidate.1 candidate.2
        change (cell.heap.offer candidate.1 candidate.2).size =
          min cell.heap.capacity (cell.heap.size + 1) at hlength
        rw [offer_of_not_zero hzero, weighted_cons_of_not_zero hzero, ih hoffer, hcapacity,
          hlength, List.length_cons, Bool.or_eq_true, or_assoc, BoundedHeap.isFull,
          decide_eq_true_eq]
        refine or_congr_right ?_
        have hsize := hcell.size_le
        omega

end BeamCell

/-! ## What the candidates are -/

theorem BeamCell.withRoot_of_isEmpty {cell : BeamCell S}
    (hempty : cell.heap.isEmpty = true) (root : Symbol) : cell.withRoot root = [] := by
  have hsize : cell.heap.toList.length = 0 := by
    rw [BoundedHeap.toList, Array.length_toList]
    exact eq_of_beq hempty
  rw [withRoot, List.length_eq_zero_iff.mp hsize]
  rfl

/-- That one side of a split is empty is checked only to save work. -/
theorem splitCandidates_eq_flatMap (model : Model K)
    (beam : (first last : Nat) → BeamCell S) (first last split : Nat) :
    splitCandidates model beam first last split =
      (model.policy.binaryRules first last split).flatMap
        (pairCandidates model (beam first (first + split)) (beam (first + split + 1) last)
          (first + split)) := by
  unfold splitCandidates
  dsimp only
  split
  · rename_i hempty
    symm
    rw [List.flatMap_eq_nil_iff]
    intro rule _
    unfold pairCandidates
    rcases Bool.or_eq_true_iff.mp hempty with hempty | hempty
    · simp [BeamCell.withRoot_of_isEmpty hempty]
    · simp [BeamCell.withRoot_of_isEmpty hempty]
  · rfl

theorem fillBeamCell_eq (model : Model K) (beamSize : Nat) (beamSize_pos : 0 < beamSize)
    (input : List Symbol) (beam : (first last : Nat) → BeamCell S) (first last : Nat) :
    fillBeamCell model beamSize beamSize_pos input beam first last =
      (beamCandidates model input beam first last).foldl BeamCell.offer
        (.empty beamSize beamSize_pos) := by
  rw [fillBeamCell, beamCandidates, List.foldl_append, List.foldl_flatMap]

theorem beamCandidates_congr (model : Model K) (input : List Symbol) {first last : Nat}
    (hlast : last < input.length) {beam beam' : (first last : Nat) → BeamCell S}
    (h : ∀ s e, s ≤ e → e < input.length → e - s < last - first → beam s e = beam' s e) :
    beamCandidates model input beam first last =
      beamCandidates model input beam' first last := by
  unfold beamCandidates
  congr 1
  apply List.flatMap_congr
  intro split hsplit
  rw [List.mem_range] at hsplit
  unfold splitCandidates
  rw [h first (first + split) (by omega) (by omega) (by omega),
    h (first + split + 1) last (by omega) hlast (by omega)]

namespace BeamChart

variable (model : Model K) (beamSize : Nat) (beamSize_pos : 0 < beamSize)
  (input : List Symbol) {first last : Nat}

/-- The candidates for a span of a finished chart. -/
def candidates (chart : BeamChart S) (model : Model K) (input : List Symbol)
    (first last : Nat) : List (BeamEntry S × S) :=
  weighted (beamCandidates model input chart.cells.get first last)

theorem get_cells_run (hspan : first ≤ last) (hlast : last < input.length) :
    (run model beamSize beamSize_pos input : BeamChart S).cells.get first last =
      (beamCandidates model input (run model beamSize beamSize_pos input).cells.get first
        last).foldl BeamCell.offer (.empty beamSize beamSize_pos) := by
  unfold run
  rw [SpanTable.get_sweep_widening hspan hlast, fillBeamCell_eq]
  intro look look' hlook
  rw [fillBeamCell_eq, fillBeamCell_eq, beamCandidates_congr model input hlast hlook]

theorem heap_run (hspan : first ≤ last) (hlast : last < input.length) :
    ((run model beamSize beamSize_pos input : BeamChart S).cells.get first last).heap =
      (BoundedHeap.empty beamSize beamSize_pos).offerAll
        ((run model beamSize beamSize_pos input).candidates model input first last) := by
  rw [get_cells_run model beamSize beamSize_pos input hspan hlast,
    BeamCell.heap_foldl_offer]
  rfl

theorem overflowed_run [TotallyRanked S] (hspan : first ≤ last)
    (hlast : last < input.length) :
    ((run model beamSize beamSize_pos input : BeamChart S).cells.get first
        last).overflowed = true ↔
      beamSize <
        ((run model beamSize beamSize_pos input : BeamChart S).candidates model input
          first last).length := by
  have hempty : (BeamCell.empty beamSize beamSize_pos : BeamCell S).heap.WellFormed :=
    BoundedHeap.wellFormed_empty beamSize beamSize_pos
  rw [get_cells_run model beamSize beamSize_pos input hspan hlast,
    BeamCell.overflowed_foldl_offer hempty]
  change false = true ∨ beamSize < 0 + _ ↔ _
  rw [Nat.zero_add]
  exact or_iff_right Bool.false_ne_true

end BeamChart

end WeightedParsing
