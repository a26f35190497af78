import WeightedParsing.Proofs.Checked.ParallelHeap
import WeightedParsing.Proofs.Weight.Selective

/-!
# Calls to a bounded heap

A heap is offered entries and asked for its lightest one, in any order.  Each call leaves
it in heap order and within its capacity, and changes what it holds by what the call says:
one entry comes or goes, or one comes in the place of the lightest.  The same holds of a
heap in two arrays, where no access goes astray.
-/

namespace WeightedParsing

variable {κ W : Type}

inductive HeapCall (κ W : Type) where
  | offer (key : κ) (weight : W)
  | removeMin

inductive HeapReply (κ W : Type) where
  | offered (kept : Bool)
  | removed (entry : Option (κ × W))
deriving DecidableEq, Repr

variable [Ranked W]

namespace BoundedHeap

def perform (heap : BoundedHeap κ W) : HeapCall κ W → HeapReply κ W × BoundedHeap κ W
  | .offer key weight => (.offered (heap.accepts weight), heap.offer key weight)
  | .removeMin =>
      (.removed (heap.removeMin?.map Prod.fst), (heap.removeMin?.map Prod.snd).getD heap)

def performAll (heap : BoundedHeap κ W) :
    List (HeapCall κ W) → List (HeapReply κ W) × BoundedHeap κ W
  | [] => ([], heap)
  | call :: rest =>
      let (reply, heap) := heap.perform call
      let (replies, heap) := heap.performAll rest
      (reply :: replies, heap)

end BoundedHeap

namespace ParallelHeap

def perform (heap : ParallelHeap κ W) :
    HeapCall κ W → Checked (HeapReply κ W × ParallelHeap κ W)
  | .offer key weight => do
      let (kept, heap) ← heap.offer key weight
      return (.offered kept, heap)
  | .removeMin => do
      let (entry, heap) ← heap.removeMin
      return (.removed entry, heap)

def performAll (heap : ParallelHeap κ W) :
    List (HeapCall κ W) → Checked (List (HeapReply κ W) × ParallelHeap κ W)
  | [] => return ([], heap)
  | call :: rest => do
      let (reply, heap) ← heap.perform call
      let (replies, heap) ← heap.performAll rest
      return (reply :: replies, heap)

end ParallelHeap

namespace BoundedHeap

theorem perform_parallel (heap : BoundedHeap κ W) (call : HeapCall κ W) :
    heap.parallel.perform call =
      .ok ((heap.perform call).1, (heap.perform call).2.parallel) := by
  cases call with
  | offer key weight =>
      rw [ParallelHeap.perform, offer_parallel]
      rfl
  | removeMin =>
      rw [ParallelHeap.perform, removeMin_parallel]
      rfl

theorem performAll_parallel (heap : BoundedHeap κ W) (calls : List (HeapCall κ W)) :
    heap.parallel.performAll calls =
      .ok ((heap.performAll calls).1, (heap.performAll calls).2.parallel) := by
  induction calls generalizing heap with
  | nil => rfl
  | cons call rest ih =>
      rw [ParallelHeap.performAll, perform_parallel, Checked.ok_bind]
      dsimp only
      rw [ih]
      rfl

/-! ## The entry that leaves -/

variable {heap : BoundedHeap κ W}

theorem removeMin?_first {rest : BoundedHeap κ W} {entry : κ × W}
    (h : heap.removeMin? = some (entry, rest)) : heap.entries[0]? = some entry := by
  unfold removeMin? at h
  split at h
  · rename_i hsize
    obtain ⟨rfl, rfl⟩ := Prod.mk.inj (Option.some.inj h)
    exact Array.getElem?_eq_getElem hsize
  · contradiction

/-- An entry that does not weigh less than the first one rises to a place below it. -/
theorem getElem?_zero_siftUp (entries : Array (κ × W)) (i : Nat) (hi : i < entries.size)
    (hpos : 0 < i) (hlt : ¬ Ranked.lt entries[i].2 (entries[0]).2 = true) :
    (siftUp entries i hi)[0]? = entries[0]? := by
  fun_induction siftUp entries i hi with
  | case1 => omega
  | case2 entries i hi hne hp hless ih =>
      have hparent : (i - 1) / 2 ≠ 0 := by
        intro hzero
        simp only [hzero] at hless
        exact hlt hless
      have hread : (entries.swap i ((i - 1) / 2))[0]? = entries[0]? := by
        rw [Array.getElem?_swap, if_neg hparent, if_neg (by omega)]
      rw [← hread]
      apply ih (by omega)
      rw [Array.getElem_swap_right]
      rw [Array.getElem_swap_of_ne]
      · exact hlt
      · omega
      · omega
  | case3 => rfl

theorem exists_removeMin? (hsize : 0 < heap.size) :
    ∃ entry rest, heap.removeMin? = some (entry, rest) := by
  cases hremove : heap.removeMin? with
  | none =>
      have hempty := removeMin?_eq_none_iff.mp hremove
      have hzero : heap.toList.length = 0 := by rw [hempty, List.length_nil]
      rw [toList, Array.length_toList] at hzero
      exact absurd hzero hsize.ne'
  | some removed => exact ⟨removed.1, removed.2, rfl⟩

theorem insert_of_size_lt (hsize : heap.size < heap.capacity) (key : κ) (weight : W) :
    (heap.insert key weight).toList.Perm ((key, weight) :: heap.toList) := by
  have hgrow := size_grow heap key weight
  rw [insert_eq, if_neg (by omega)]
  exact (grow_perm heap key weight).symm

variable [TotallyRanked W]

/-- The first entry of a full heap gives its place to one that is accepted. -/
theorem exists_insert_perm_of_full (hfull : heap.size = heap.capacity) {key : κ} {weight : W}
    (haccepts : heap.accepts weight = true) :
    ∃ first rest, heap.entries[0]? = some first ∧ heap.toList = first :: rest ∧
      (heap.insert key weight).toList.Perm ((key, weight) :: rest) := by
  have hsize : 0 < heap.entries.size := by
    have hpos := heap.capacity_pos
    rw [← hfull] at hpos
    exact hpos
  have hfirst : heap.entries[0]? = some heap.entries[0] := Array.getElem?_eq_getElem hsize
  obtain ⟨rest, hlist⟩ : ∃ rest, heap.toList = heap.entries[0] :: rest := by
    refine ⟨_, List.eq_cons_of_mem_head? ?_⟩
    rw [List.head?_eq_getElem?, toList, Array.getElem?_toList, hfirst]
    rfl
  have hlighter : ¬ Ranked.lt weight heap.entries[0].2 = true := by
    have hlt : Ranked.lt heap.entries[0].2 weight = true := by
      simpa [accepts, isFull, minWeight?, hfull, hfirst] using haccepts
    rw [Ranked.lt_iff_not_le, not_not]
    exact Ranked.le_of_lt hlt
  have hkept : (heap.grow key weight).entries[0]? = some heap.entries[0] := by
    refine (getElem?_zero_siftUp _ _ _ hsize ?_).trans ?_
    · rw [Array.getElem_push_eq, Array.getElem_push_lt hsize]
      exact hlighter
    · rw [Array.getElem?_push_lt hsize]
  have hgrow := size_grow heap key weight
  obtain ⟨entry, after, hremove⟩ :=
    exists_removeMin? (show 0 < (heap.grow key weight).size by omega)
  obtain rfl : heap.entries[0] = entry :=
    Option.some.inj (hkept.symm.trans (removeMin?_first hremove))
  refine ⟨_, rest, hfirst, hlist, ?_⟩
  have hperm := (grow_perm heap key weight).trans (removeMin?_perm hremove)
  rw [hlist] at hperm
  rw [insert_eq, if_pos (by omega), hremove]
  exact (((List.Perm.swap _ _ rest).trans hperm).cons_inv).symm

theorem WellFormed.perform (h : heap.WellFormed) (call : HeapCall κ W) :
    (heap.perform call).2.WellFormed ∧ (heap.perform call).2.capacity = heap.capacity := by
  cases call with
  | offer key weight =>
      obtain ⟨hafter, hcapacity, _⟩ := wellFormed_offer h key weight
      exact ⟨hafter, hcapacity⟩
  | removeMin =>
      rw [BoundedHeap.perform]
      cases hremove : heap.removeMin? with
      | none => exact ⟨h, rfl⟩
      | some removed =>
          obtain ⟨hordered, hcapacity, _⟩ := removeMin?_spec h.ordered hremove
          have hsize := size_removeMin? hremove
          have hle := h.size_le
          refine ⟨⟨hordered, ?_⟩, hcapacity⟩
          change removed.2.size ≤ removed.2.capacity
          change removed.2.capacity = heap.capacity at hcapacity
          omega

theorem WellFormed.performAll (h : heap.WellFormed) (calls : List (HeapCall κ W)) :
    (heap.performAll calls).2.WellFormed ∧
      (heap.performAll calls).2.capacity = heap.capacity := by
  induction calls generalizing heap with
  | nil => exact ⟨h, rfl⟩
  | cons call rest ih =>
      obtain ⟨hstep, hcapacity⟩ := h.perform call
      obtain ⟨hrest, hrestCapacity⟩ := ih hstep
      exact ⟨hrest, hrestCapacity.trans hcapacity⟩

end BoundedHeap

/-! ## What a heap obeys -/

/-- The rules that a heap in two arrays obeys, whatever it is asked next. -/
structure ParallelHeap.Obeys (capacity : Nat) (heap : ParallelHeap κ W) : Prop where
  capacity_eq : heap.capacity = capacity
  sizes_eq : heap.keys.size = heap.weights.size
  size_le : heap.keys.size ≤ capacity
  ordered : ∀ i (_ : i < heap.weights.size), 0 < i →
    Ranked.le heap.weights[(i - 1) / 2] heap.weights[i] = true
  offer_refused : ∀ key weight, heap.accepts weight = false →
    heap.offer key weight = .ok (false, heap)
  offer_taken : ∀ key weight, heap.accepts weight = true → heap.keys.size < capacity →
    ∃ after, heap.offer key weight = .ok (true, after) ∧
      after.entries.Perm ((key, weight) :: heap.entries)
  offer_exchanged : ∀ key weight, heap.accepts weight = true → heap.keys.size = capacity →
    ∃ after least rest, heap.offer key weight = .ok (true, after) ∧
      heap.minWeight? = some least.2 ∧ heap.entries.Perm (least :: rest) ∧
      (∀ a ∈ rest, Ranked.le least.2 a.2 = true) ∧
      after.entries.Perm ((key, weight) :: rest)
  removeMin_empty : heap.keys.size = 0 → heap.removeMin = .ok (none, heap)
  removeMin_least : 0 < heap.keys.size →
    ∃ least after, heap.removeMin = .ok (some least, after) ∧
      heap.entries.Perm (least :: after.entries) ∧
      ∀ a ∈ after.entries, Ranked.le least.2 a.2 = true

namespace BoundedHeap

variable {heap : BoundedHeap κ W}

theorem offer_of_accepts {weight : W} (haccepts : heap.accepts weight = true) (key : κ) :
    heap.parallel.offer key weight = .ok (true, (heap.insert key weight).parallel) := by
  rw [offer_parallel, offer, offer?, haccepts]
  rfl

theorem WellFormed.le_parallel (h : heap.WellFormed) (i : Nat)
    (hi : i < heap.parallel.weights.size) (hpos : 0 < i) :
    Ranked.le heap.parallel.weights[(i - 1) / 2] heap.parallel.weights[i] = true := by
  have hsize : i < heap.entries.size := by rwa [parallel, ParallelHeap.ofEntries,
    Array.size_map] at hi
  have hle := (below_iff (by omega) hsize).mp (h.ordered i hpos)
  simpa only [parallel, ParallelHeap.ofEntries, Array.getElem_map] using hle

variable [TotallyRanked W]

theorem WellFormed.obeys (h : heap.WellFormed) : heap.parallel.Obeys heap.capacity where
  capacity_eq := rfl
  sizes_eq := by rw [parallel, ParallelHeap.ofEntries, Array.size_map, Array.size_map]
  size_le := by
    rw [size_keys_parallel]
    exact h.size_le
  ordered := h.le_parallel
  offer_refused := by
    intro key weight haccepts
    rw [accepts_parallel] at haccepts
    rw [offer_parallel, haccepts, offer, offer?, haccepts]
    rfl
  offer_taken := by
    intro key weight haccepts hsize
    rw [accepts_parallel] at haccepts
    rw [size_keys_parallel] at hsize
    refine ⟨_, offer_of_accepts haccepts key, ?_⟩
    rw [entries_parallel, entries_parallel]
    exact insert_of_size_lt hsize key weight
  offer_exchanged := by
    intro key weight haccepts hsize
    rw [accepts_parallel] at haccepts
    rw [size_keys_parallel] at hsize
    obtain ⟨first, rest, hfirst, hlist, hperm⟩ := exists_insert_perm_of_full hsize haccepts
    refine ⟨_, first, rest, offer_of_accepts haccepts key, ?_, ?_, ?_, ?_⟩
    · rw [ParallelHeap.minWeight?, parallel, ParallelHeap.ofEntries, Array.getElem?_map, hfirst]
      rfl
    · rw [entries_parallel, hlist]
    · intro a ha
      have hmem : a ∈ heap.toList := hlist ▸ List.mem_cons_of_mem _ ha
      exact h.ordered.first_le hfirst hmem
    · rw [entries_parallel]
      exact hperm
  removeMin_empty := by
    intro hsize
    rw [size_keys_parallel] at hsize
    rw [removeMin_parallel, removeMin?, dif_neg (by rw [← size, hsize]; decide)]
    rfl
  removeMin_least := by
    intro hsize
    rw [size_keys_parallel] at hsize
    obtain ⟨least, after, hremove⟩ := exists_removeMin? hsize
    obtain ⟨_, _, hperm, hle⟩ := removeMin?_spec h.ordered hremove
    refine ⟨least, after.parallel, ?_, ?_⟩
    · rw [removeMin_parallel, hremove]
      rfl
    · rw [entries_parallel, entries_parallel]
      exact ⟨hperm, hle⟩

/-- Whatever a new heap in two arrays is asked, no access goes astray and every sift comes to
an end.  It replies and holds what the heap of entries does, and it obeys the rules of a
heap. -/
theorem obeys_after_calls {capacity : Nat} (hcapacity : 0 < capacity)
    (calls : List (HeapCall κ W)) :
    ∃ start : BoundedHeap κ W, ofCapacity capacity = .ok start ∧
      ∃ replies heap,
        ParallelHeap.performAll ⟨#[], #[], capacity⟩ calls = .ok (replies, heap) ∧
          replies = (start.performAll calls).1 ∧
          heap = (start.performAll calls).2.parallel ∧ heap.Obeys capacity := by
  have hperform := performAll_parallel (empty capacity hcapacity) calls
  have hempty : (empty capacity hcapacity : BoundedHeap κ W).parallel = ⟨#[], #[], capacity⟩ := by
    rw [parallel, empty, ParallelHeap.ofEntries, Array.map_empty, Array.map_empty]
  rw [hempty] at hperform
  refine ⟨empty capacity hcapacity, dif_pos hcapacity, _, _, hperform, rfl, rfl, ?_⟩
  obtain ⟨hafter, hcapacityAfter⟩ := (wellFormed_empty capacity hcapacity).performAll calls
  have hobeys := hafter.obeys
  rwa [hcapacityAfter] at hobeys

/-- A heap of two entries refuses a third that weighs as little as its lightest one, and
takes a heavier one in the place of that. -/
theorem obeys_after_calls_two_entries :
    0 < 2 ∧ ∃ start : BoundedHeap Nat Nat, ofCapacity 2 = .ok start ∧
      ∃ replies heap,
        ParallelHeap.performAll ⟨#[], #[], 2⟩
            [.offer 0 5, .offer 1 3, .offer 2 3, .offer 3 4, .removeMin] =
          .ok (replies, heap) ∧
        replies = [.offered true, .offered true, .offered false, .offered true,
          .removed (some (3, 4))] ∧
        heap.entries = [(0, 5)] ∧ heap.Obeys 2 := by
  obtain ⟨start, hstart, replies, heap, hperform, hreplies, hheap, hobeys⟩ :=
    obeys_after_calls (κ := Nat) (W := Nat) (by decide : 0 < 2)
      [.offer 0 5, .offer 1 3, .offer 2 3, .offer 3 4, .removeMin]
  refine ⟨by decide, start, hstart, replies, heap, hperform, ?_, ?_, hobeys⟩
  · cases hstart
    rw [hreplies]
    decide +kernel
  · cases hstart
    rw [hheap, entries_parallel]
    decide +kernel

end BoundedHeap

end WeightedParsing
