import WeightedParsing.Proofs.BoundedHeap
import WeightedParsing.Proofs.Checked.SpanTable

/-!
# Heaps in two arrays

The keys and the weights of a heap may stand in two arrays, which change in step.  Nothing
about two arrays says that they have the same length or that a position lies within them,
so every access is checked, and a sift is a loop that looks for its next position in the
weights alone.

A heap of entries, taken apart into its keys and weights, goes through the same states, and
none of the checks fails.
-/

namespace WeightedParsing

/-! ## Arrays with checked positions -/

namespace Checked

variable {α : Type}

def swapAt (items : Array α) (i j : Nat) : Checked (Array α) :=
  if h : i < items.size ∧ j < items.size then .ok (items.swap i j h.1 h.2)
  else .error (.outOfRange i j items.size)

/-- Takes out the item at `i`, whose place the last item takes. -/
def swapRemove (items : Array α) (i : Nat) : Checked (α × Array α) :=
  if h : i < items.size then .ok (items[i], (items.swap i (items.size - 1)).pop)
  else .error (.outOfRange i i items.size)

theorem map_swap {β : Type} (f : α → β) (items : Array α) {i j : Nat} (hi : i < items.size)
    (hj : j < items.size) :
    (items.swap i j).map f =
      (items.map f).swap i j ((Array.size_map).symm ▸ hi) ((Array.size_map).symm ▸ hj) := by
  apply Array.ext
  · simp
  · intro k _ _
    simp only [Array.getElem_map, Array.getElem_swap]
    split
    · rfl
    split
    · rfl
    · rfl

theorem swapAt_map {β : Type} (f : α → β) {items : Array α} {i j : Nat}
    (hi : i < items.size) (hj : j < items.size) :
    swapAt (items.map f) i j = .ok ((items.swap i j).map f) := by
  rw [map_swap f items hi hj]
  exact dif_pos ⟨Array.size_map.symm ▸ hi, Array.size_map.symm ▸ hj⟩

theorem swapRemove_map {β : Type} (f : α → β) {items : Array α} {i : Nat}
    (hi : i < items.size) :
    swapRemove (items.map f) i =
      .ok (f items[i], (items.swap i (items.size - 1)).pop.map f) := by
  have hsize : i < (items.map f).size := Array.size_map.symm ▸ hi
  rw [swapRemove, dif_pos hsize, Array.map_pop, map_swap f items hi]
  simp only [Array.getElem_map, Array.size_map]

end Checked

/-! ## The heap -/

structure ParallelHeap (κ W : Type) where
  keys : Array κ
  weights : Array W
  capacity : Nat

namespace ParallelHeap

open Checked

variable {κ W : Type} [Ranked W]

def size (heap : ParallelHeap κ W) : Nat := heap.keys.size

def isFull (heap : ParallelHeap κ W) : Bool := heap.capacity ≤ heap.size

def minWeight? (heap : ParallelHeap κ W) : Option W := heap.weights[0]?

/-- The pairs of a key and the weight that stands at the same position. -/
def entries (heap : ParallelHeap κ W) : List (κ × W) :=
  (heap.keys.zip heap.weights).toList

def accepts (heap : ParallelHeap κ W) (weight : W) : Bool :=
  !heap.isFull || heap.minWeight?.any fun least => Ranked.lt least weight

def swap (heap : ParallelHeap κ W) (i j : Nat) : Checked (ParallelHeap κ W) := do
  let keys ← swapAt heap.keys i j
  let weights ← swapAt heap.weights i j
  return { heap with keys, weights }

def siftUp (heap : ParallelHeap κ W) (i : Nat) : Checked (ParallelHeap κ W) :=
  if _h : i = 0 then return heap
  else do
    let weight ← getAt heap.weights i
    let above ← getAt heap.weights ((i - 1) / 2)
    if Ranked.lt weight above then
      let swapped ← heap.swap i ((i - 1) / 2)
      swapped.siftUp ((i - 1) / 2)
    else return heap
termination_by i
decreasing_by omega

/-- The child of `i` that the entry at `i` is compared with, in a heap of some length. -/
def lighterChild (heap : ParallelHeap κ W) (length i : Nat) :
    Checked (Option { child // i < child ∧ child < length }) :=
  if hright : 2 * i + 2 < length then do
    let left ← getAt heap.weights (2 * i + 1)
    let right ← getAt heap.weights (2 * i + 2)
    if Ranked.le left right then return some ⟨2 * i + 1, by omega, by omega⟩
    else return some ⟨2 * i + 2, by omega, hright⟩
  else if hleft : 2 * i + 1 < length then return some ⟨2 * i + 1, by omega, hleft⟩
  else return none

def siftDown (length : Nat) (heap : ParallelHeap κ W) (i : Nat) :
    Checked (ParallelHeap κ W) := do
  match ← heap.lighterChild length i with
  | none => return heap
  | some ⟨child, _hchild⟩ =>
      let weight ← getAt heap.weights child
      let above ← getAt heap.weights i
      if Ranked.lt weight above then
        let swapped ← heap.swap i child
        siftDown length swapped child
      else return heap
termination_by length - i
decreasing_by omega

def removeMin (heap : ParallelHeap κ W) :
    Checked (Option (κ × W) × ParallelHeap κ W) :=
  if heap.size = 0 then return (none, heap)
  else do
    let (key, keys) ← swapRemove heap.keys 0
    let (weight, weights) ← swapRemove heap.weights 0
    let sifted ← siftDown keys.size { heap with keys, weights } 0
    return (some (key, weight), sifted)

/-- Whether the entry was taken, and the heap after that. -/
def offer (heap : ParallelHeap κ W) (key : κ) (weight : W) :
    Checked (Bool × ParallelHeap κ W) :=
  if heap.accepts weight then do
    let pushed : ParallelHeap κ W :=
      { heap with keys := heap.keys.push key, weights := heap.weights.push weight }
    let last ← sub pushed.size 1
    let grown ← pushed.siftUp last
    if grown.capacity < grown.size then
      let (_, rest) ← grown.removeMin
      return (true, rest)
    else return (true, grown)
  else return (false, heap)

end ParallelHeap

/-! ## Entries taken apart -/

namespace ParallelHeap

open Checked

variable {κ W : Type}

/-- The heap of the given entries, in their order. -/
def ofEntries (capacity : Nat) (entries : Array (κ × W)) : ParallelHeap κ W :=
  ⟨entries.map Prod.fst, entries.map Prod.snd, capacity⟩

section OfEntries

variable {capacity : Nat} {items : Array (κ × W)} {i j : Nat}

@[simp] theorem size_ofEntries : (ofEntries capacity items).size = items.size :=
  Array.size_map

theorem entries_ofEntries : (ofEntries capacity items).entries = items.toList := by
  rw [entries, ofEntries, Array.zip_map', Array.map_id']

theorem getAt_weights (h : i < items.size) :
    getAt (ofEntries capacity items).weights i = .ok items[i].2 := by
  have hsize : i < (items.map Prod.snd).size := by rwa [Array.size_map]
  rw [ofEntries, getAt_eq hsize, Array.getElem_map]

theorem swap_ofEntries (hi : i < items.size) (hj : j < items.size) :
    (ofEntries capacity items).swap i j = .ok (ofEntries capacity (items.swap i j)) := by
  rw [swap, ofEntries, swapAt_map Prod.fst hi hj, ok_bind, swapAt_map Prod.snd hi hj]
  rfl

variable [Ranked W]

theorem siftUp_ofEntries (hi : i < items.size) :
    (ofEntries capacity items).siftUp i =
      .ok (ofEntries capacity (BoundedHeap.siftUp items i hi)) := by
  fun_induction BoundedHeap.siftUp items i hi with
  | case1 items =>
      rw [siftUp]
      rfl
  | case2 items i hi hne hp hlt ih =>
      rw [siftUp, dif_neg hne, getAt_weights hi, ok_bind, getAt_weights hp, ok_bind,
        if_pos hlt, swap_ofEntries hi hp, ok_bind]
      exact ih
  | case3 items i hi hne hp hlt =>
      rw [siftUp, dif_neg hne, getAt_weights hi, ok_bind, getAt_weights hp, ok_bind,
        if_neg hlt]
      rfl

/-! ### Sinking -/

theorem lighterChild_left (hleft : 2 * i + 1 < items.size)
    (hright : 2 * i + 2 < items.size)
    (hle : Ranked.le items[2 * i + 1].2 items[2 * i + 2].2 = true) :
    ∃ hchild, (ofEntries capacity items).lighterChild items.size i =
      .ok (some ⟨2 * i + 1, hchild⟩) := by
  refine ⟨⟨by omega, hleft⟩, ?_⟩
  rw [lighterChild, dif_pos hright, getAt_weights hleft, ok_bind,
    getAt_weights hright, ok_bind, if_pos hle]
  rfl

theorem lighterChild_right (hleft : 2 * i + 1 < items.size)
    (hright : 2 * i + 2 < items.size)
    (hle : ¬ Ranked.le items[2 * i + 1].2 items[2 * i + 2].2 = true) :
    ∃ hchild, (ofEntries capacity items).lighterChild items.size i =
      .ok (some ⟨2 * i + 2, hchild⟩) := by
  refine ⟨⟨by omega, hright⟩, ?_⟩
  rw [lighterChild, dif_pos hright, getAt_weights hleft, ok_bind,
    getAt_weights hright, ok_bind, if_neg hle]
  rfl

theorem lighterChild_only (hright : ¬ 2 * i + 2 < items.size)
    (hleft : 2 * i + 1 < items.size) :
    ∃ hchild, (ofEntries capacity items).lighterChild items.size i =
      .ok (some ⟨2 * i + 1, hchild⟩) := by
  refine ⟨⟨by omega, hleft⟩, ?_⟩
  rw [lighterChild, dif_neg hright, dif_pos hleft]
  rfl

theorem lighterChild_none (hleft : ¬ 2 * i + 1 < items.size) :
    (ofEntries capacity items).lighterChild items.size i = .ok none := by
  rw [lighterChild, dif_neg (by omega), dif_neg hleft]
  rfl

theorem siftDown_childless (hleft : ¬ 2 * i + 1 < items.size) :
    siftDown items.size (ofEntries capacity items) i = .ok (ofEntries capacity items) := by
  rw [siftDown, lighterChild_none hleft]
  rfl

section Turn

variable {child : Nat} {hchild : i < child ∧ child < items.size}
  (hlighter : (ofEntries capacity items).lighterChild items.size i =
    .ok (some ⟨child, hchild⟩))

include hlighter

theorem siftDown_stay
    (hlt : ¬ Ranked.lt items[child].2 items[i].2 = true) :
    siftDown items.size (ofEntries capacity items) i = .ok (ofEntries capacity items) := by
  rw [siftDown, hlighter, ok_bind]
  dsimp only
  rw [getAt_weights hchild.2, ok_bind, getAt_weights (hchild.1.trans hchild.2), ok_bind,
    if_neg hlt]
  rfl

theorem siftDown_sink (hlt : Ranked.lt items[child].2 items[i].2 = true) :
    siftDown items.size (ofEntries capacity items) i =
      siftDown (items.swap i child).size (ofEntries capacity (items.swap i child)) child := by
  rw [siftDown, hlighter, ok_bind]
  dsimp only
  rw [getAt_weights hchild.2, ok_bind, getAt_weights (hchild.1.trans hchild.2), ok_bind,
    if_pos hlt, swap_ofEntries (hchild.1.trans hchild.2) hchild.2, ok_bind, Array.size_swap]

end Turn

theorem siftDown_ofEntries :
    siftDown items.size (ofEntries capacity items) i =
      .ok (ofEntries capacity (BoundedHeap.siftDown items i)) := by
  fun_induction BoundedHeap.siftDown items i with
  | case1 items i hright hle hlt ih =>
      obtain ⟨_, hlighter⟩ := lighterChild_left (Nat.lt_of_succ_lt hright) hright hle
      exact (siftDown_sink hlighter hlt).trans ih
  | case2 items i hright hle hlt =>
      obtain ⟨_, hlighter⟩ := lighterChild_left (Nat.lt_of_succ_lt hright) hright hle
      exact siftDown_stay hlighter hlt
  | case3 items i hright hle hlt ih =>
      obtain ⟨_, hlighter⟩ := lighterChild_right (Nat.lt_of_succ_lt hright) hright hle
      exact (siftDown_sink hlighter hlt).trans ih
  | case4 items i hright hle hlt =>
      obtain ⟨_, hlighter⟩ := lighterChild_right (Nat.lt_of_succ_lt hright) hright hle
      exact siftDown_stay hlighter hlt
  | case5 items i hright hleft hlt =>
      obtain ⟨_, hlighter⟩ := lighterChild_only hright hleft
      -- The entry sinks to the last position, where the loop finds no child.
      refine (siftDown_sink hlighter hlt).trans (siftDown_childless ?_)
      rw [Array.size_swap]
      omega
  | case6 items i hright hleft hlt =>
      obtain ⟨_, hlighter⟩ := lighterChild_only hright hleft
      exact siftDown_stay hlighter hlt
  | case7 items i hright hleft => exact siftDown_childless hleft

end OfEntries

end ParallelHeap

/-! ## Whole calls -/

namespace BoundedHeap

open Checked ParallelHeap

variable {κ W : Type}

/-- The keys and the weights of a heap apart. -/
def parallel (heap : BoundedHeap κ W) : ParallelHeap κ W :=
  ofEntries heap.capacity heap.entries

variable (heap : BoundedHeap κ W)

@[simp] theorem size_keys_parallel : heap.parallel.keys.size = heap.size := Array.size_map

@[simp] theorem entries_parallel : heap.parallel.entries = heap.toList := entries_ofEntries

variable [Ranked W]

theorem accepts_parallel (weight : W) : heap.parallel.accepts weight = heap.accepts weight := by
  have hleast : heap.parallel.minWeight? = heap.minWeight? := Array.getElem?_map
  rw [ParallelHeap.accepts, ParallelHeap.isFull, ParallelHeap.size, hleast, size_keys_parallel]
  rfl

theorem removeMin_parallel :
    heap.parallel.removeMin =
      .ok (heap.removeMin?.map Prod.fst,
        ((heap.removeMin?.map Prod.snd).getD heap).parallel) := by
  have hsize : heap.parallel.size = heap.entries.size := heap.size_keys_parallel
  unfold removeMin? ParallelHeap.removeMin
  by_cases hentries : 0 < heap.entries.size
  · rw [dif_pos hentries, if_neg (by omega), parallel, ofEntries,
      swapRemove_map Prod.fst hentries, ok_bind]
    dsimp only
    rw [swapRemove_map Prod.snd hentries, ok_bind]
    dsimp only
    have hsift : ParallelHeap.siftDown _ (ofEntries heap.capacity
        (heap.entries.swap 0 (heap.entries.size - 1)).pop) 0 = _ := siftDown_ofEntries
    rw [ofEntries] at hsift
    rw [Array.size_map, hsift]
    rfl
  · rw [dif_neg hentries, if_pos (by omega)]
    rfl

theorem offer_parallel (key : κ) (weight : W) :
    heap.parallel.offer key weight =
      .ok (heap.accepts weight, (heap.offer key weight).parallel) := by
  have hgrow : ParallelHeap.siftUp (ofEntries heap.capacity (heap.entries.push (key, weight)))
      heap.entries.size = .ok (heap.grow key weight).parallel :=
    siftUp_ofEntries (by simp)
  have hpushed : (⟨heap.parallel.keys.push key, heap.parallel.weights.push weight,
      heap.parallel.capacity⟩ : ParallelHeap κ W) =
        ofEntries heap.capacity (heap.entries.push (key, weight)) := by
    simp only [parallel, ofEntries, Array.map_push]
  unfold offer offer? ParallelHeap.offer
  rw [accepts_parallel, insert_eq]
  cases haccepts : heap.accepts weight with
  | false => rfl
  | true =>
      have hsize : (heap.grow key weight).parallel.size = (heap.grow key weight).size :=
        size_ofEntries
      simp only [hpushed, size_ofEntries, Array.size_push, if_true]
      rw [sub_eq (Nat.le_add_left 1 _), ok_bind, Nat.add_sub_cancel, hgrow, ok_bind, hsize]
      change (if heap.capacity < _ then _ else _) = _
      split
      · rw [removeMin_parallel]
        rfl
      · rfl

end BoundedHeap

end WeightedParsing
