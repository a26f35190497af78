import WeightedParsing.Error
import WeightedParsing.Weight.Ranked

/-!
# Bounded heaps

A binary min-heap of weighted keys that keeps the heaviest entries it was
offered, up to its capacity.  A full heap takes a new entry only if it weighs
more than the lightest entry held, which then leaves.
-/

namespace WeightedParsing

/-- A binary min-heap that holds at most `capacity` entries. -/
structure BoundedHeap (κ W : Type) where
  entries : Array (κ × W)
  capacity : Nat
  capacity_pos : 0 < capacity

namespace BoundedHeap

variable {κ W : Type} [Ranked W]

/-- Moves the entry at `i` up while it weighs less than its parent. -/
def siftUp (entries : Array (κ × W)) (i : Nat) (hi : i < entries.size) :
    Array (κ × W) :=
  if h : i = 0 then entries
  else
    have hp : (i - 1) / 2 < entries.size := by omega
    if Ranked.lt entries[i].2 entries[(i - 1) / 2].2 then
      siftUp (entries.swap i ((i - 1) / 2)) ((i - 1) / 2) (by simpa using hp)
    else entries
termination_by i
decreasing_by omega

/-- Moves the entry at `i` down while one of its children weighs less; of two
children the left one is taken unless the right one weighs less. -/
def siftDown (entries : Array (κ × W)) (i : Nat) : Array (κ × W) :=
  if hr : 2 * i + 2 < entries.size then
    if Ranked.le entries[2 * i + 1].2 entries[2 * i + 2].2 then
      if Ranked.lt entries[2 * i + 1].2 entries[i].2 then
        siftDown (entries.swap i (2 * i + 1)) (2 * i + 1)
      else entries
    else if Ranked.lt entries[2 * i + 2].2 entries[i].2 then
      siftDown (entries.swap i (2 * i + 2)) (2 * i + 2)
    else entries
  else if hl : 2 * i + 1 < entries.size then
    if Ranked.lt entries[2 * i + 1].2 entries[i].2 then
      entries.swap i (2 * i + 1)
    else entries
  else entries
termination_by entries.size - i
decreasing_by all_goals simp only [Array.size_swap]; omega

theorem size_siftDown (entries : Array (κ × W)) (i : Nat) :
    (siftDown entries i).size = entries.size := by
  fun_induction siftDown entries i <;> simp_all

def empty (capacity : Nat) (capacity_pos : 0 < capacity) : BoundedHeap κ W :=
  ⟨#[], capacity, capacity_pos⟩

def ofCapacity (capacity : Nat) : Except UsageError (BoundedHeap κ W) :=
  if h : 0 < capacity then .ok (empty capacity h) else .error .zeroCapacity

def size (heap : BoundedHeap κ W) : Nat := heap.entries.size

def isEmpty (heap : BoundedHeap κ W) : Bool := heap.size == 0

def isFull (heap : BoundedHeap κ W) : Bool := heap.capacity ≤ heap.size

/-- The weight that an entry has to beat once the heap is full. -/
def minWeight? (heap : BoundedHeap κ W) : Option W :=
  heap.entries[0]?.map Prod.snd

def get? (heap : BoundedHeap κ W) (i : Nat) : Option (κ × W) := heap.entries[i]?

/-- The entries in heap order, which is not sorted. -/
def toList (heap : BoundedHeap κ W) : List (κ × W) := heap.entries.toList

def accepts (heap : BoundedHeap κ W) (weight : W) : Bool :=
  !heap.isFull || heap.minWeight?.any fun least => Ranked.lt least weight

/-- The first entry, and the heap without it: the last entry takes its place and
sinks to where it belongs. -/
def removeMin? (heap : BoundedHeap κ W) :
    Option ((κ × W) × BoundedHeap κ W) :=
  if h : 0 < heap.entries.size then
    let last := heap.entries.size - 1
    let rest := (heap.entries.swap 0 last).pop
    some (heap.entries[0], { heap with entries := siftDown rest 0 })
  else none

/-- The heap after it took an entry; if there was no room, its lightest entry
leaves. -/
def insert (heap : BoundedHeap κ W) (key : κ) (weight : W) : BoundedHeap κ W :=
  let grown : BoundedHeap κ W :=
    { heap with
      entries := siftUp (heap.entries.push (key, weight)) heap.entries.size
        (by simp) }
  if grown.capacity < grown.size then
    match grown.removeMin? with
    | some (_, rest) => rest
    | none => grown
  else grown

def offer? (heap : BoundedHeap κ W) (key : κ) (weight : W) :
    Option (BoundedHeap κ W) :=
  if heap.accepts weight then some (heap.insert key weight) else none

def offer (heap : BoundedHeap κ W) (key : κ) (weight : W) : BoundedHeap κ W :=
  (heap.offer? key weight).getD heap

def offerAll (heap : BoundedHeap κ W) (entries : List (κ × W)) :
    BoundedHeap κ W :=
  entries.foldl (fun heap entry => heap.offer entry.1 entry.2) heap

/-- The entries with the heaviest first; equal ones keep their heap order. -/
def sorted (heap : BoundedHeap κ W) : List (κ × W) :=
  Ranked.sortDescending Prod.snd heap.toList

/-- The positions of the entries, the heaviest first; equal ones by position. -/
def sortedPositions (heap : BoundedHeap κ W) : List Nat :=
  (Ranked.sortDescending (fun entry => entry.1.2) heap.toList.zipIdx).map Prod.snd

/-- Whether the entries are fit to be sorted. -/
def Sortable (heap : BoundedHeap κ W) : Prop := Ranked.Sortable Prod.snd heap.toList

instance (heap : BoundedHeap κ W) : Decidable heap.Sortable :=
  inferInstanceAs (Decidable (Ranked.Sortable _ _))

def checkedSortedPositions (heap : BoundedHeap κ W) : Except UsageError (List Nat) :=
  if heap.Sortable then .ok heap.sortedPositions else .error .noTotalOrder

theorem size_removeMin? {heap rest : BoundedHeap κ W} {entry : κ × W}
    (h : heap.removeMin? = some (entry, rest)) : rest.size + 1 = heap.size := by
  unfold removeMin? at h
  split at h
  · injection h with h
    injection h with _ h
    subst h
    simp only [size, size_siftDown, Array.size_pop, Array.size_swap]
    omega
  · simp at h

/-- The entries in the order in which they leave the heap. -/
def drainAscending (heap : BoundedHeap κ W) : List (κ × W) :=
  match _removed : heap.removeMin? with
  | some (entry, rest) => entry :: rest.drainAscending
  | none => []
termination_by heap.size
decreasing_by
  have := size_removeMin? _removed
  omega

def drainDescending (heap : BoundedHeap κ W) : List (κ × W) :=
  heap.drainAscending.reverse

end BoundedHeap

end WeightedParsing
