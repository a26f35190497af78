import WeightedParsing.Proofs.BoundedHeap
import WeightedParsing.Proofs.Weight.Homomorphism

/-!
# Images of bounded heaps

A heap compares weights and does nothing else with them.  Under a map that comparisons
do not tell from the identity it makes the same moves: the same entries sink and rise,
the same ones are refused, and the same ones leave.
-/

namespace WeightedParsing

namespace BoundedHeap

theorem swap_map {α β : Type} (g : α → β) (entries : Array α) {i j : Nat}
    (hi : i < (entries.map g).size) (hj : j < (entries.map g).size) :
    (entries.map g).swap i j hi hj =
      (entries.swap i j (by simpa using hi) (by simpa using hj)).map g := by
  apply Array.ext
  · simp
  · intro k _ _
    simp only [Array.getElem_map, Array.getElem_swap]
    split
    · rfl
    · split <;> rfl

variable {κ κ' W W' : Type} {f : κ → κ'} {h : W → W'}

/-- The image of a heap under maps of its keys and of its weights. -/
def map (f : κ → κ') (h : W → W') (heap : BoundedHeap κ W) : BoundedHeap κ' W' :=
  ⟨heap.entries.map (Prod.map f h), heap.capacity, heap.capacity_pos⟩

theorem empty_map (capacity : Nat) (capacity_pos : 0 < capacity) :
    (empty capacity capacity_pos).map f h = empty capacity capacity_pos := by
  simp [empty, map]

@[simp] theorem size_map (heap : BoundedHeap κ W) : (heap.map f h).size = heap.size := by
  simp [size, map]

@[simp] theorem isEmpty_map (heap : BoundedHeap κ W) :
    (heap.map f h).isEmpty = heap.isEmpty := by
  simp [isEmpty]

@[simp] theorem isFull_map (heap : BoundedHeap κ W) :
    (heap.map f h).isFull = heap.isFull := by
  unfold isFull
  rw [size_map]
  rfl

theorem get?_map (heap : BoundedHeap κ W) (i : Nat) :
    (heap.map f h).get? i = (heap.get? i).map (Prod.map f h) := by
  simp [get?, map]

theorem toList_map (heap : BoundedHeap κ W) :
    (heap.map f h).toList = heap.toList.map (Prod.map f h) := by
  simp [toList, map]

section Moves

variable [Ranked W] [Ranked W']

theorem drainAscending_of_some {heap rest : BoundedHeap κ W} {entry : κ × W}
    (hremove : heap.removeMin? = some (entry, rest)) :
    heap.drainAscending = entry :: rest.drainAscending := by
  rw [drainAscending]
  split
  · rename_i hsome
    rw [hremove] at hsome
    cases hsome
    rfl
  · rename_i hnone
    rw [hremove] at hnone
    cases hnone

theorem drainAscending_of_none {heap : BoundedHeap κ W}
    (hremove : heap.removeMin? = none) : heap.drainAscending = [] := by
  rw [drainAscending]
  split
  · rename_i hsome
    rw [hremove] at hsome
    cases hsome
  · rfl

variable (hembeds : Ranked.Embeds h)

include hembeds

theorem siftUp_map (entries : Array (κ × W)) (i : Nat) (hi : i < entries.size)
    (hi' : i < (entries.map (Prod.map f h)).size) :
    siftUp (entries.map (Prod.map f h)) i hi' =
      (siftUp entries i hi).map (Prod.map f h) := by
  fun_induction siftUp entries i hi with
  | case1 entries hi => rw [siftUp, dif_pos rfl]
  | case2 entries i hi hzero hp hlt ih =>
      rw [siftUp, dif_neg hzero]
      simp only [Array.getElem_map, Prod.map_snd, hembeds.lt_map, hlt, if_true]
      simp only [swap_map]
      exact ih _
  | case3 entries i hi hzero hp hlt =>
      rw [siftUp, dif_neg hzero]
      simp only [Array.getElem_map, Prod.map_snd, hembeds.lt_map, hlt]
      rfl

theorem siftDown_map (entries : Array (κ × W)) (i : Nat) :
    siftDown (entries.map (Prod.map f h)) i =
      (siftDown entries i).map (Prod.map f h) := by
  fun_induction siftDown entries i with
  | case1 entries i hr hle hlt ih =>
      rw [siftDown]
      simp [hr, hembeds.lt_map, hembeds.le_map, hle, hlt, swap_map, ih]
  | case2 entries i hr hle hlt =>
      rw [siftDown]
      simp [hr, hembeds.lt_map, hembeds.le_map, hle, hlt]
  | case3 entries i hr hle hlt ih =>
      rw [siftDown]
      simp [hr, hembeds.lt_map, hembeds.le_map, hle, hlt, swap_map, ih]
  | case4 entries i hr hle hlt =>
      rw [siftDown]
      simp [hr, hembeds.lt_map, hembeds.le_map, hle, hlt]
  | case5 entries i hr hl hlt =>
      rw [siftDown]
      simp [hr, hl, hembeds.lt_map, hlt, swap_map]
  | case6 entries i hr hl hlt =>
      rw [siftDown]
      simp [hr, hl, hembeds.lt_map, hlt]
  | case7 entries i hr hl =>
      rw [siftDown]
      simp [hr, hl]

theorem accepts_map (heap : BoundedHeap κ W) (weight : W) :
    (heap.map f h).accepts (h weight) = heap.accepts weight := by
  unfold accepts minWeight?
  rw [isFull_map]
  simp only [map, Array.getElem?_map, Option.map_map]
  cases heap.entries[0]? with
  | none => rfl
  | some entry => simp [hembeds.lt_map]

theorem removeMin?_map (heap : BoundedHeap κ W) :
    (heap.map f h).removeMin? =
      heap.removeMin?.map fun removed => (Prod.map f h removed.1, removed.2.map f h) := by
  unfold removeMin?
  by_cases hsize : 0 < heap.entries.size
  · simp [hsize, map, swap_map, ← Array.map_pop, siftDown_map hembeds]
  · simp [hsize, map]

theorem grow_map (heap : BoundedHeap κ W) (key : κ) (weight : W) :
    (heap.map f h).grow (f key) (h weight) = (heap.grow key weight).map f h := by
  unfold grow pushSorted map
  simp only [mk.injEq, and_true, Array.size_map]
  have hpush : (heap.entries.map (Prod.map f h)).push (f key, h weight) =
      (heap.entries.push (key, weight)).map (Prod.map f h) := by
    rw [Array.map_push]
    rfl
  simp only [hpush]
  exact siftUp_map hembeds _ _ _ _

theorem insert_map (heap : BoundedHeap κ W) (key : κ) (weight : W) :
    (heap.map f h).insert (f key) (h weight) = (heap.insert key weight).map f h := by
  rw [insert_eq, insert_eq, grow_map hembeds, size_map, removeMin?_map hembeds]
  change (if heap.capacity < _ then _ else _) = _
  split
  · cases (heap.grow key weight).removeMin? with
    | none => rfl
    | some removed => rfl
  · rfl

theorem offer_map (heap : BoundedHeap κ W) (key : κ) (weight : W) :
    (heap.map f h).offer (f key) (h weight) = (heap.offer key weight).map f h := by
  unfold offer offer?
  rw [accepts_map hembeds]
  split
  · exact insert_map hembeds heap key weight
  · rfl

theorem offerAll_map (heap : BoundedHeap κ W) (entries : List (κ × W)) :
    (heap.map f h).offerAll (entries.map (Prod.map f h)) =
      (heap.offerAll entries).map f h := by
  unfold offerAll
  rw [List.foldl_map]
  apply List.foldl_hom (map f h)
  intro heap entry
  exact offer_map hembeds heap entry.1 entry.2

theorem sorted_map (heap : BoundedHeap κ W) :
    (heap.map f h).sorted = heap.sorted.map (Prod.map f h) := by
  unfold sorted
  have hweight : ∀ entry : κ × W, (Prod.map f h entry).2 = h entry.2 := fun _ => rfl
  rw [toList_map, Ranked.sortDescending_map hembeds hweight]

theorem drainAscending_map (heap : BoundedHeap κ W) :
    (heap.map f h).drainAscending = heap.drainAscending.map (Prod.map f h) := by
  induction hsize : heap.size using Nat.strongRecOn generalizing heap with
  | ind n ih =>
      have hmap := removeMin?_map (f := f) hembeds heap
      cases hremove : heap.removeMin? with
      | none =>
          rw [hremove] at hmap
          rw [drainAscending_of_none hremove, drainAscending_of_none hmap]
          rfl
      | some removed =>
          rw [hremove] at hmap
          have hrest := size_removeMin? hremove
          rw [drainAscending_of_some hremove, drainAscending_of_some hmap,
            ih removed.2.size (by omega) removed.2 rfl]
          rfl

theorem drainDescending_map (heap : BoundedHeap κ W) :
    (heap.map f h).drainDescending = heap.drainDescending.map (Prod.map f h) := by
  unfold drainDescending
  rw [drainAscending_map hembeds, List.map_reverse]

end Moves

end BoundedHeap

end WeightedParsing
