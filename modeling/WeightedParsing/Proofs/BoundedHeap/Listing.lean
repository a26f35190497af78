import WeightedParsing.Proofs.BoundedHeap
import WeightedParsing.Proofs.Weight.Selective

/-!
# Listing what a heap holds

The entries of a heap are listed in two ways: by removing the lightest until none is
left, and by sorting the positions.  Both lists have the heaviest entries first, and read
the same weights; sorted positions of equal weight stand in their own order too.
-/

namespace WeightedParsing.BoundedHeap

variable {κ W : Type} [Ranked W] {heap : BoundedHeap κ W}

section Positions

variable (heap)

/-- The entries with the positions that they are held at. -/
def placed : List ((κ × W) × Nat) :=
  Ranked.sortDescending (fun entry => entry.1.2) heap.toList.zipIdx

theorem placed_perm : heap.placed.Perm heap.toList.zipIdx :=
  Ranked.sortDescending_perm _ _

theorem sortedPositions_eq : heap.sortedPositions = heap.placed.map Prod.snd := rfl

variable {heap}

theorem get?_of_mem_placed {entry : (κ × W) × Nat} (h : entry ∈ heap.placed) :
    heap.get? entry.2 = some entry.1 := by
  have hread := List.mk_mem_zipIdx_iff_getElem?.mp (heap.placed_perm.mem_iff.mp h)
  rwa [toList, Array.getElem?_toList] at hread

theorem sortedPositions_perm : heap.sortedPositions.Perm (List.range heap.size) := by
  have hpositions : heap.toList.zipIdx.map Prod.snd = List.range heap.size := by
    rw [List.zipIdx_map_snd, ← List.range_eq_range']
    rfl
  rw [sortedPositions_eq, ← hpositions]
  exact heap.placed_perm.map Prod.snd

theorem map_get?_sortedPositions :
    heap.sortedPositions.map heap.get? = heap.placed.map fun entry => some entry.1 := by
  rw [sortedPositions_eq, List.map_map]
  exact List.map_congr_left fun entry => get?_of_mem_placed

theorem sortedPositions_stable :
    heap.sortedPositions.Pairwise fun i j => ∀ a ∈ heap.get? i, ∀ b ∈ heap.get? j,
      Ranked.lt b.2 a.2 = true ∨ i < j := by
  have hpositions : heap.toList.zipIdx.Pairwise fun a b => a.2 < b.2 := by
    rw [← List.pairwise_map (f := Prod.snd), List.zipIdx_map_snd]
    exact List.pairwise_lt_range'
  have hplaced := Ranked.sortDescending_stable (fun entry => entry.1.2) hpositions
  rw [sortedPositions_eq, List.pairwise_map]
  refine List.Pairwise.imp_of_mem ?_ hplaced
  intro a b ha hb hab c hc d hd
  rw [get?_of_mem_placed ha] at hc
  rw [get?_of_mem_placed hb] at hd
  cases hc
  cases hd
  exact hab

/-- No list of positions is refused where weights are in a total order. -/
theorem checkedSortedPositions_eq [TotallyRanked W] :
    heap.checkedSortedPositions = .ok heap.sortedPositions :=
  if_pos (Ranked.sortable _ _)

end Positions

variable [TotallyRanked W]

/-- What a heap of a capacity that was offered some entries holds, and how it lists it. -/
structure HoldsHeaviest (heap : BoundedHeap κ W) (capacity : Nat)
    (offers : List (κ × W)) : Prop where
  size_eq : heap.size = min capacity offers.length
  selection : Heaviest Prod.snd capacity offers heap.toList
  least : ∀ weight, heap.minWeight? = some weight ↔
    weight ∈ heap.toList.map Prod.snd ∧
      ∀ a ∈ heap.toList, Ranked.le weight a.2 = true
  drained_perm : heap.drainDescending.Perm heap.toList
  drained_descending : Ranked.Descending Prod.snd heap.drainDescending
  positions_perm : heap.sortedPositions.Perm (List.range heap.size)
  positions_weights : heap.sortedPositions.map (fun i => (heap.get? i).map Prod.snd) =
    heap.drainDescending.map fun a => some a.2
  positions_stable : heap.sortedPositions.Pairwise fun i j =>
    ∀ a ∈ heap.get? i, ∀ b ∈ heap.get? j, a.2 = b.2 → i < j

section Antisymmetric

variable (hantisymm : ∀ a b : W, Ranked.le a b = true → Ranked.le b a = true → a = b)

include hantisymm

theorem minWeight?_eq_some_iff (h : Ordered heap.entries) (weight : W) :
    heap.minWeight? = some weight ↔
      weight ∈ heap.toList.map Prod.snd ∧
        ∀ a ∈ heap.toList, Ranked.le weight a.2 = true := by
  rw [minWeight?, Option.map_eq_some_iff]
  constructor
  · rintro ⟨first, hfirst, rfl⟩
    refine ⟨List.mem_map_of_mem ?_, fun a ha => h.first_le hfirst ha⟩
    exact Array.mem_toList_iff.mpr (Array.mem_of_getElem? hfirst)
  · rintro ⟨hweight, hle⟩
    obtain ⟨a, ha, rfl⟩ := List.mem_map.mp hweight
    have hsize : 0 < heap.entries.size := by
      rw [← Array.length_toList]
      exact List.length_pos_of_mem ha
    have hfirst : heap.entries[0]? = some heap.entries[0] := by simp [hsize]
    refine ⟨_, hfirst, hantisymm _ _ (h.first_le hfirst ha) (hle _ ?_)⟩
    exact Array.mem_toList_iff.mpr (Array.mem_of_getElem? hfirst)

theorem map_weight_sortedPositions (h : Ordered heap.entries) :
    heap.sortedPositions.map (fun i => (heap.get? i).map Prod.snd) =
      heap.drainDescending.map fun a => some a.2 := by
  have hplaced : (heap.placed.map Prod.fst).Perm heap.drainDescending := by
    refine (heap.placed_perm.map Prod.fst).trans ?_
    rw [List.zipIdx_map_fst]
    exact (drainDescending_perm heap).symm
  have hdescending : Ranked.Descending Prod.snd (heap.placed.map Prod.fst) :=
    List.pairwise_map.mpr (Ranked.descending_sortDescending _ _)
  have hweights := hdescending.map_eq_of_perm hantisymm hplaced
    (descending_drainDescending h)
  calc
    heap.sortedPositions.map (fun i => (heap.get? i).map Prod.snd) =
        (heap.sortedPositions.map heap.get?).map (Option.map Prod.snd) := by
      rw [List.map_map]
      rfl
    _ = ((heap.placed.map Prod.fst).map Prod.snd).map some := by
      rw [map_get?_sortedPositions, List.map_map, List.map_map, List.map_map]
      rfl
    _ = heap.drainDescending.map fun a => some a.2 := by
      rw [hweights, List.map_map]
      rfl

/-- A new heap keeps the heaviest of what it is offered, and lists them by weight. -/
theorem offerAll_holds_heaviest {capacity : Nat} (hcapacity : 0 < capacity)
    (offers : List (κ × W)) :
    ∃ heap : BoundedHeap κ W, ofCapacity capacity = .ok heap ∧
      (heap.offerAll offers).HoldsHeaviest capacity offers := by
  refine ⟨empty capacity hcapacity, dif_pos hcapacity, ?_⟩
  have hordered := (wellFormed_offerAll offers
    (wellFormed_empty (κ := κ) (W := W) capacity hcapacity)).1.ordered
  have hselection := heaviest_offerAll_empty hcapacity offers
  constructor
  · obtain ⟨_, _, hlength, _⟩ := hselection
    exact hlength
  · exact hselection
  · exact minWeight?_eq_some_iff hantisymm hordered
  · exact drainDescending_perm _
  · exact descending_drainDescending hordered
  · exact sortedPositions_perm
  · exact map_weight_sortedPositions hantisymm hordered
  · refine List.Pairwise.imp ?_ sortedPositions_stable
    intro i j hij a ha b hb heq
    refine (hij a ha b hb).resolve_left ?_
    rw [Ranked.lt_iff_not_le, not_not, heq]
    exact Ranked.le_refl _

end Antisymmetric

/-- Of five offers three are held; of the two that weigh five one had to leave. -/
theorem offerAll_holds_heaviest_five_offers :
    ∃ heap : BoundedHeap Nat Nat, ofCapacity 3 = .ok heap ∧
      (heap.offerAll [(0, 5), (1, 1), (2, 9), (3, 5), (4, 7)]).HoldsHeaviest 3
        [(0, 5), (1, 1), (2, 9), (3, 5), (4, 7)] ∧
      (heap.offerAll [(0, 5), (1, 1), (2, 9), (3, 5), (4, 7)]).drainDescending.map
        Prod.snd = [9, 7, 5] := by
  have hantisymm : ∀ a b : Nat, Ranked.le a b = true → Ranked.le b a = true → a = b :=
    fun a b hab hba => Nat.le_antisymm (of_decide_eq_true hab) (of_decide_eq_true hba)
  obtain ⟨heap, hheap, hholds⟩ := offerAll_holds_heaviest hantisymm (by decide : 0 < 3)
    [(0, 5), (1, 1), (2, 9), (3, 5), (4, 7)]
  refine ⟨heap, hheap, hholds, ?_⟩
  cases hheap
  decide +kernel

end WeightedParsing.BoundedHeap
