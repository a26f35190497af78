import WeightedParsing.BoundedHeap
import WeightedParsing.Proofs.Selection

/-!
# Bounded heaps keep the heaviest entries

The entries of a heap are in heap order: none weighs less than its parent, so that
the first one is the lightest.  A sift starts from entries that are in order but for
one place, above it or below it, and puts that right by swaps.  What a heap holds
after some offers is therefore a selection of what it was offered.
-/

namespace WeightedParsing.BoundedHeap

variable {κ W : Type} [Ranked W]

/-- The entry at `p` weighs no more than that at `c`, if there are both. -/
def Below (entries : Array (κ × W)) (p c : Nat) : Prop :=
  ∀ a ∈ entries[p]?, ∀ b ∈ entries[c]?, Ranked.le a.2 b.2 = true

/-- No entry weighs less than its parent. -/
def Ordered (entries : Array (κ × W)) : Prop :=
  ∀ c, 0 < c → Below entries ((c - 1) / 2) c

/-- Only the entry at `hole` may weigh less than its parent. -/
structure OrderedBelow (entries : Array (κ × W)) (hole : Nat) : Prop where
  other : ∀ c, 0 < c → c ≠ hole → Below entries ((c - 1) / 2) c
  around : 0 < hole → ∀ c, 0 < c → (c - 1) / 2 = hole →
    Below entries ((hole - 1) / 2) c

/-- Only the entry at `hole` may weigh more than one of its children. -/
structure OrderedAbove (entries : Array (κ × W)) (hole : Nat) : Prop where
  other : ∀ c, 0 < c → (c - 1) / 2 ≠ hole → Below entries ((c - 1) / 2) c
  around : 0 < hole → ∀ c, 0 < c → (c - 1) / 2 = hole →
    Below entries ((hole - 1) / 2) c

section Sifts

variable {entries : Array (κ × W)} {i j p c : Nat}

theorem below_iff (hp : p < entries.size) (hc : c < entries.size) :
    Below entries p c ↔ Ranked.le entries[p].2 entries[c].2 = true := by
  simp [Below, hp, hc]

theorem below_of_size_le (hc : entries.size ≤ c) : Below entries p c := by
  simp [Below, hc]

theorem below_swap (hi : i < entries.size) (hj : j < entries.size) :
    Below (entries.swap i j hi hj) p c ↔
      Below entries (if p = i then j else if p = j then i else p)
        (if c = i then j else if c = j then i else c) := by
  have hread : ∀ k, (entries.swap i j hi hj)[k]? =
      entries[if k = i then j else if k = j then i else k]? := by
    intro k
    rw [Array.getElem?_swap]
    by_cases hkj : j = k
    · subst hkj
      by_cases hji : j = i
      · subst hji
        simp [hi]
      · simp [hji, hi]
    · by_cases hki : i = k
      · subst hki
        simp [hkj, hj]
      · simp [hkj, hki, Ne.symm hkj, Ne.symm hki]
  unfold Below
  rw [hread, hread]

theorem OrderedAbove.ordered (h : OrderedAbove entries i)
    (hchildren : ∀ c, 0 < c → (c - 1) / 2 = i → Below entries i c) :
    Ordered entries := by
  intro c hc
  by_cases hchild : (c - 1) / 2 = i
  · rw [hchild]
    exact hchildren c hc hchild
  · exact h.other c hc hchild

theorem below_children (hleft : Below entries p (2 * i + 1))
    (hright : Below entries p (2 * i + 2)) :
    ∀ c, 0 < c → (c - 1) / 2 = i → Below entries p c := by
  intro c hc hchild
  obtain rfl | rfl : c = 2 * i + 1 ∨ c = 2 * i + 2 := by omega
  · exact hleft
  · exact hright

variable [TotallyRanked W]

theorem below_refl (p : Nat) : Below entries p p := by
  intro a ha b hb
  rw [Option.mem_unique ha hb]
  exact Ranked.le_refl _

theorem Below.trans (h : Below entries i j) (h' : Below entries j c)
    (hj : j < entries.size) : Below entries i c := by
  intro a ha b hb
  have hmiddle : entries[j] ∈ entries[j]? := by simp [hj]
  exact TotallyRanked.le_trans (h a ha _ hmiddle) (h' _ hmiddle b hb)

theorem OrderedBelow.swap (h : OrderedBelow entries i) (hi : i < entries.size)
    (hpos : 0 < i) (hlt : Ranked.lt entries[i].2 entries[(i - 1) / 2].2 = true) :
    OrderedBelow (entries.swap i ((i - 1) / 2)) ((i - 1) / 2) := by
  have hp : (i - 1) / 2 < entries.size := by omega
  have hbelow : Below entries i ((i - 1) / 2) :=
    (below_iff hi hp).mpr (Ranked.le_of_lt hlt)
  constructor
  · intro c hc hne
    rw [below_swap hi hp, if_neg hne]
    by_cases hci : c = i
    · subst hci
      rw [if_neg (by omega), if_pos rfl, if_pos rfl]
      exact hbelow
    rw [if_neg hci]
    by_cases hchild : (c - 1) / 2 = i
    · rw [if_pos hchild]
      exact h.around hpos c hc hchild
    rw [if_neg hchild]
    by_cases hsibling : (c - 1) / 2 = (i - 1) / 2
    · have hother := h.other c hc hci
      rw [hsibling] at hother
      rw [if_pos hsibling]
      exact hbelow.trans hother hp
    · rw [if_neg hsibling]
      exact h.other c hc hci
  · intro hparent c hc hchild
    have hup := h.other ((i - 1) / 2) hparent (by omega)
    rw [below_swap hi hp, if_neg (show ((i - 1) / 2 - 1) / 2 ≠ i by omega),
      if_neg (show ((i - 1) / 2 - 1) / 2 ≠ (i - 1) / 2 by omega)]
    by_cases hci : c = i
    · rw [if_pos hci]
      exact hup
    · have hother := h.other c hc hci
      rw [hchild] at hother
      rw [if_neg hci, if_neg (show c ≠ (i - 1) / 2 by omega)]
      exact hup.trans hother hp

theorem ordered_siftUp (entries : Array (κ × W)) (i : Nat) (hi : i < entries.size)
    (h : OrderedBelow entries i) : Ordered (siftUp entries i hi) := by
  fun_induction siftUp entries i hi with
  | case1 entries hi =>
      intro c hc
      exact h.other c hc (by omega)
  | case2 entries i hi hne hp hlt ih => exact ih (h.swap hi (by omega) hlt)
  | case3 entries i hi hne hp hlt =>
      intro c hc
      by_cases hci : c = i
      · subst hci
        exact (below_iff hp hi).mpr (Ranked.le_of_not_lt hlt)
      · exact h.other c hc hci

theorem OrderedAbove.swap (h : OrderedAbove entries i) {m : Nat}
    (hi : i < entries.size) (hm : m < entries.size) (hmi : (m - 1) / 2 = i)
    (hpos : 0 < m) (hlightest : ∀ c, 0 < c → (c - 1) / 2 = i → Below entries m c)
    (hlt : Ranked.lt entries[m].2 entries[i].2 = true) :
    OrderedAbove (entries.swap i m) m := by
  have hbelow : Below entries m i := (below_iff hm hi).mpr (Ranked.le_of_lt hlt)
  constructor
  · intro c hc hne
    rw [below_swap hi hm]
    by_cases hcm : c = m
    · subst hcm
      rw [hmi, if_pos rfl, if_neg (by omega), if_pos rfl]
      exact hbelow
    by_cases hci : c = i
    · subst hci
      rw [if_neg (by omega), if_neg hne, if_pos rfl]
      exact h.around hc m hpos hmi
    rw [if_neg hci, if_neg hcm]
    by_cases hchild : (c - 1) / 2 = i
    · rw [if_pos hchild]
      exact hlightest c hc hchild
    · rw [if_neg hchild, if_neg hne]
      exact h.other c hc hchild
  · intro _ c hc hchild
    have hother := h.other c hc (by omega)
    rw [hchild] at hother
    rw [below_swap hi hm, hmi, if_pos rfl, if_neg (show c ≠ i by omega),
      if_neg (show c ≠ m by omega)]
    exact hother

theorem ordered_siftDown (entries : Array (κ × W)) (i : Nat)
    (h : OrderedAbove entries i) : Ordered (siftDown entries i) := by
  fun_induction siftDown entries i with
  | case1 entries i hr hle hlt ih =>
      apply ih
      apply h.swap (by omega) (by omega) (by omega) (by omega) _ hlt
      exact below_children (below_refl _) ((below_iff (by omega) hr).mpr hle)
  | case2 entries i hr hle hlt =>
      have hleft : Below entries i (2 * i + 1) :=
        (below_iff (by omega) (by omega)).mpr (Ranked.le_of_not_lt hlt)
      apply h.ordered
      exact below_children hleft
        (hleft.trans ((below_iff (by omega) hr).mpr hle) (by omega))
  | case3 entries i hr hle hlt ih =>
      have hright : Below entries (2 * i + 2) (2 * i + 1) :=
        (below_iff hr (by omega)).mpr
          ((TotallyRanked.le_total _ _).resolve_left hle)
      apply ih
      apply h.swap (by omega) hr (by omega) (by omega) _ hlt
      exact below_children hright (below_refl _)
  | case4 entries i hr hle hlt =>
      have hright : Below entries (2 * i + 2) (2 * i + 1) :=
        (below_iff hr (by omega)).mpr
          ((TotallyRanked.le_total _ _).resolve_left hle)
      have hstay : Below entries i (2 * i + 2) :=
        (below_iff (by omega) hr).mpr (Ranked.le_of_not_lt hlt)
      apply h.ordered
      exact below_children (hstay.trans hright hr) hstay
  | case5 entries i hr hl hlt =>
      have hswap : OrderedAbove (entries.swap i (2 * i + 1)) (2 * i + 1) := by
        apply h.swap (by omega) hl (by omega) (by omega) _ hlt
        exact below_children (below_refl _) (below_of_size_le (by omega))
      apply hswap.ordered
      intro c hc hchild
      apply below_of_size_le
      rw [Array.size_swap]
      omega
  | case6 entries i hr hl hlt =>
      apply h.ordered
      exact below_children ((below_iff (by omega) hl).mpr (Ranked.le_of_not_lt hlt))
        (below_of_size_le (by omega))
  | case7 entries i hr hl =>
      apply h.ordered
      exact below_children (below_of_size_le (by omega)) (below_of_size_le (by omega))

theorem Ordered.first_below (h : Ordered entries) (c : Nat) : Below entries 0 c := by
  induction c using Nat.strongRecOn with
  | ind c ih =>
      by_cases hc : c = 0
      · rw [hc]
        exact below_refl 0
      by_cases hsize : c < entries.size
      · exact (ih ((c - 1) / 2) (by omega)).trans (h c (by omega)) (by omega)
      · exact below_of_size_le (by omega)

/-- The first entry of a heap is a lightest one. -/
theorem Ordered.first_le (h : Ordered entries) {first : κ × W} (hfirst : first ∈ entries[0]?)
    {a : κ × W} (ha : a ∈ entries.toList) : Ranked.le first.2 a.2 = true := by
  obtain ⟨c, hc⟩ := List.mem_iff_getElem?.mp ha
  rw [Array.getElem?_toList] at hc
  exact h.first_below c first hfirst a hc

end Sifts

/-! ## Sifts permute -/

theorem siftUp_perm (entries : Array (κ × W)) (i : Nat) (hi : i < entries.size) :
    (siftUp entries i hi).toList.Perm entries.toList := by
  fun_induction siftUp entries i hi with
  | case1 => exact .refl _
  | case2 entries i hi hne hp hlt ih =>
      exact ih.trans (Array.perm_iff_toList_perm.mp (Array.swap_perm hi hp))
  | case3 => exact .refl _

theorem siftDown_perm (entries : Array (κ × W)) (i : Nat) :
    (siftDown entries i).toList.Perm entries.toList := by
  fun_induction siftDown entries i with
  | case1 entries i hr hle hlt ih =>
      exact ih.trans (Array.perm_iff_toList_perm.mp (Array.swap_perm _ _))
  | case3 entries i hr hle hlt ih =>
      exact ih.trans (Array.perm_iff_toList_perm.mp (Array.swap_perm _ _))
  | case5 entries i hr hl hlt =>
      exact Array.perm_iff_toList_perm.mp (Array.swap_perm _ _)
  | case2 => exact .refl _
  | case4 => exact .refl _
  | case6 => exact .refl _
  | case7 => exact .refl _

/-! ## Removing and taking entries -/

section Operations

variable {heap rest : BoundedHeap κ W}

theorem removeMin?_eq_none_iff : heap.removeMin? = none ↔ heap.toList = [] := by
  unfold removeMin? toList
  by_cases h : 0 < heap.entries.size
  · rw [dif_pos h]
    simp only [reduceCtorEq, false_iff]
    intro hempty
    rw [← Array.length_toList, hempty] at h
    exact absurd h (by simp)
  · rw [dif_neg h]
    have hempty : heap.entries.toList.length = 0 := by
      rw [Array.length_toList]
      omega
    simpa using hempty

/-- Position zero takes the last entry, which is above its children there. -/
theorem orderedAbove_removed {entries : Array (κ × W)} (h : Ordered entries)
    (hsize : 0 < entries.size) :
    OrderedAbove (entries.swap 0 (entries.size - 1)).pop 0 := by
  constructor
  · intro c hc hchild
    by_cases hlast : c < entries.size - 1
    · have hread : ∀ k, 0 < k → k < entries.size - 1 →
          (entries.swap 0 (entries.size - 1)).pop[k]? = entries[k]? := by
        intro k hk hklast
        rw [Array.getElem?_pop, Array.size_swap, if_pos hklast, Array.getElem?_swap,
          if_neg (by omega), if_neg (by omega)]
      unfold Below
      rw [hread c hc hlast, hread ((c - 1) / 2) (by omega) (by omega)]
      exact h c hc
    · apply below_of_size_le
      rw [Array.size_pop, Array.size_swap]
      omega
  · intro hzero
    omega

theorem perm_removed {α : Type} {entries : Array α} (hsize : 0 < entries.size) :
    entries.toList.Perm
      (entries[0] :: (entries.swap 0 (entries.size - 1)).pop.toList) := by
  have hlast : entries.size - 1 < entries.size := by omega
  have hne : (entries.swap 0 (entries.size - 1)).toList ≠ [] := by
    apply List.ne_nil_of_length_pos
    rw [Array.length_toList, Array.size_swap]
    exact hsize
  have hsplit := List.dropLast_concat_getLast hne
  have hgetLast : (entries.swap 0 (entries.size - 1)).toList.getLast hne = entries[0] := by
    rw [List.getLast_eq_getElem]
    simp
  rw [hgetLast, ← Array.toList_pop] at hsplit
  have hswap := Array.perm_iff_toList_perm.mp (Array.swap_perm hsize hlast)
  rw [← hsplit] at hswap
  exact hswap.symm.trans List.perm_append_comm

theorem orderedBelow_push {entries : Array (κ × W)} (h : Ordered entries)
    (entry : κ × W) : OrderedBelow (entries.push entry) entries.size := by
  constructor
  · intro c hc hne
    by_cases hsize : c < entries.size
    · unfold Below
      rw [Array.getElem?_push, if_neg (by omega), Array.getElem?_push,
        if_neg (by omega)]
      exact h c hc
    · apply below_of_size_le
      rw [Array.size_push]
      omega
  · intro hpos c hc hchild
    apply below_of_size_le
    rw [Array.size_push]
    omega

structure WellFormed (heap : BoundedHeap κ W) : Prop where
  ordered : Ordered heap.entries
  size_le : heap.size ≤ heap.capacity

theorem wellFormed_empty (capacity : Nat) (capacity_pos : 0 < capacity) :
    (empty capacity capacity_pos : BoundedHeap κ W).WellFormed where
  ordered := fun c _ => below_of_size_le (Nat.zero_le c)
  size_le := Nat.zero_le _

/-- The entries with one more among them. -/
def pushSorted (entries : Array (κ × W)) (entry : κ × W) : Array (κ × W) :=
  siftUp (entries.push entry) entries.size (by simp)

/-- A heap with one more entry, whether or not there is room for it. -/
def grow (heap : BoundedHeap κ W) (key : κ) (weight : W) : BoundedHeap κ W :=
  { heap with entries := pushSorted heap.entries (key, weight) }

theorem insert_eq (heap : BoundedHeap κ W) (key : κ) (weight : W) :
    heap.insert key weight =
      if heap.capacity < (heap.grow key weight).size then
        ((heap.grow key weight).removeMin?.map Prod.snd).getD (heap.grow key weight)
      else heap.grow key weight := by
  have hgrow : heap.grow key weight =
      { heap with
        entries := siftUp (heap.entries.push (key, weight)) heap.entries.size
          (by simp) } := rfl
  rw [insert, ← hgrow]
  cases (heap.grow key weight).removeMin? with
  | none => rfl
  | some removed => rfl

theorem grow_perm (heap : BoundedHeap κ W) (key : κ) (weight : W) :
    ((key, weight) :: heap.toList).Perm (heap.grow key weight).toList := by
  have hpush := siftUp_perm (heap.entries.push (key, weight)) heap.entries.size (by simp)
  rw [Array.toList_push] at hpush
  exact (List.perm_append_singleton _ _).symm.trans hpush.symm

theorem size_grow (heap : BoundedHeap κ W) (key : κ) (weight : W) :
    (heap.grow key weight).size = heap.size + 1 := by
  have hlength := (grow_perm heap key weight).length_eq
  simpa [toList, size] using hlength.symm

theorem removeMin?_perm {entry : κ × W}
    (hremove : heap.removeMin? = some (entry, rest)) :
    heap.toList.Perm (entry :: rest.toList) := by
  unfold removeMin? at hremove
  by_cases hsize : 0 < heap.entries.size
  · rw [dif_pos hsize] at hremove
    obtain ⟨rfl, rfl⟩ := Prod.mk.inj (Option.some.inj hremove)
    exact (perm_removed hsize).trans ((siftDown_perm _ _).symm.cons _)
  · rw [dif_neg hsize] at hremove
    cases hremove

theorem toList_insert_subset (heap : BoundedHeap κ W) (key : κ) (weight : W) :
    (heap.insert key weight).toList ⊆ (key, weight) :: heap.toList := by
  have hgrow := (grow_perm heap key weight).symm.subset
  rw [insert_eq]
  split
  · cases hremove : (heap.grow key weight).removeMin? with
    | none => exact hgrow
    | some removed =>
        have hperm := removeMin?_perm hremove
        exact fun a ha => hgrow (hperm.mem_iff.mpr (List.mem_cons_of_mem _ ha))
  · exact hgrow

theorem toList_offerAll_subset (entries : List (κ × W)) (heap : BoundedHeap κ W) :
    (heap.offerAll entries).toList ⊆ entries ++ heap.toList := by
  induction entries generalizing heap with
  | nil => exact List.Subset.refl _
  | cons entry rest ih =>
      have hoffer : (heap.offer entry.1 entry.2).toList ⊆ entry :: heap.toList := by
        unfold offer offer?
        split
        · exact toList_insert_subset heap entry.1 entry.2
        · exact List.subset_cons_self _ _
      intro a ha
      rcases List.mem_append.mp (ih _ ha) with hrest | hheap
      · exact List.mem_append_left _ (List.mem_cons_of_mem _ hrest)
      · rcases List.mem_cons.mp (hoffer hheap) with rfl | hheap
        · exact List.mem_append_left _ List.mem_cons_self
        · exact List.mem_append_right _ hheap

/-- However weights compare, a heap holds nothing that it was not offered. -/
theorem toList_offerAll_empty_subset {capacity : Nat} (capacity_pos : 0 < capacity)
    (entries : List (κ × W)) :
    ((empty capacity capacity_pos).offerAll entries).toList ⊆ entries := by
  have hsubset := toList_offerAll_subset entries (empty capacity capacity_pos)
  have hempty : (empty capacity capacity_pos : BoundedHeap κ W).toList = [] := rfl
  rwa [hempty, List.append_nil] at hsubset

theorem drainAscending_perm (heap : BoundedHeap κ W) :
    heap.drainAscending.Perm heap.toList := by
  induction hsize : heap.size using Nat.strongRecOn generalizing heap with
  | ind n ih =>
      rw [drainAscending]
      split
      · rename_i entry rest hremove
        have hrestSize := size_removeMin? hremove
        exact ((ih rest.size (by omega) rest rfl).cons entry).trans
          (removeMin?_perm hremove).symm
      · rename_i hremove
        rw [removeMin?_eq_none_iff.mp hremove]

theorem drainDescending_perm (heap : BoundedHeap κ W) :
    heap.drainDescending.Perm heap.toList :=
  (List.reverse_perm _).trans (drainAscending_perm heap)

variable [TotallyRanked W]

theorem removeMin?_spec (h : Ordered heap.entries) {entry : κ × W}
    (hremove : heap.removeMin? = some (entry, rest)) :
    Ordered rest.entries ∧ rest.capacity = heap.capacity ∧
      heap.toList.Perm (entry :: rest.toList) ∧
        ∀ a ∈ rest.toList, Ranked.le entry.2 a.2 = true := by
  have hperm := removeMin?_perm hremove
  unfold removeMin? at hremove
  by_cases hsize : 0 < heap.entries.size
  · rw [dif_pos hsize] at hremove
    obtain ⟨rfl, rfl⟩ := Prod.mk.inj (Option.some.inj hremove)
    refine ⟨ordered_siftDown _ _ (orderedAbove_removed h hsize), rfl, hperm, ?_⟩
    intro a ha
    have hmem : a ∈ heap.entries.toList := hperm.mem_iff.mpr (List.mem_cons_of_mem _ ha)
    exact h.first_le (by simp [hsize]) hmem
  · rw [dif_neg hsize] at hremove
    cases hremove

theorem ordered_grow (h : Ordered heap.entries) (key : κ) (weight : W) :
    Ordered (heap.grow key weight).entries :=
  ordered_siftUp _ _ _ (orderedBelow_push h _)

theorem wellFormed_insert (h : heap.WellFormed) (key : κ) (weight : W) :
    (heap.insert key weight).WellFormed ∧
      (heap.insert key weight).capacity = heap.capacity ∧
        Heaviest Prod.snd heap.capacity ((key, weight) :: heap.toList)
          (heap.insert key weight).toList := by
  have hordered := ordered_grow h.ordered key weight
  have hperm := grow_perm heap key weight
  have hsize := size_grow heap key weight
  have hle := h.size_le
  rw [insert_eq]
  by_cases hfull : heap.capacity < (heap.grow key weight).size
  · rw [if_pos hfull]
    cases hremove : (heap.grow key weight).removeMin? with
    | none =>
        rw [removeMin?_eq_none_iff.mp hremove] at hperm
        exact absurd hperm.length_eq (by simp)
    | some removed =>
        obtain ⟨entry, rest⟩ := removed
        obtain ⟨hrest, hrestCapacity, hrestPerm, hlightest⟩ :=
          removeMin?_spec hordered hremove
        have hrestSize := size_removeMin? hremove
        change rest.WellFormed ∧ rest.capacity = heap.capacity ∧
          Heaviest _ _ _ rest.toList
        change rest.capacity = heap.capacity at hrestCapacity
        refine ⟨⟨hrest, by omega⟩, hrestCapacity, [entry], ?_, ?_, ?_⟩
        · exact (hperm.trans hrestPerm).trans (List.perm_append_singleton _ _).symm
        · rw [List.length_cons]
          change rest.size = min heap.capacity (heap.size + 1)
          omega
        · intro a ha d hd
          rw [List.mem_singleton.mp hd]
          exact hlightest a ha
  · rw [if_neg hfull]
    refine ⟨⟨hordered, Nat.le_of_not_lt hfull⟩, rfl, [], ?_, ?_, ?_⟩
    · rw [List.append_nil]
      exact hperm
    · rw [← hperm.length_eq]
      change heap.size + 1 = min heap.capacity (heap.size + 1)
      omega
    · simp

theorem le_of_not_accepts (h : heap.WellFormed) {weight : W}
    (hrefused : ¬heap.accepts weight = true) :
    heap.capacity ≤ heap.size ∧ ∀ a ∈ heap.toList, Ranked.le weight a.2 = true := by
  unfold accepts isFull minWeight? at hrefused
  simp only [Bool.or_eq_true, Bool.not_eq_true', decide_eq_false_iff_not, not_or,
    not_not] at hrefused
  refine ⟨hrefused.1, ?_⟩
  have hcapacity := heap.capacity_pos
  have hsize : 0 < heap.entries.size := by
    have hfull := hrefused.1
    unfold size at hfull
    omega
  have hfirst : Ranked.le weight heap.entries[0].2 = true := by
    apply Ranked.le_of_not_lt
    simpa [hsize] using hrefused.2
  intro a ha
  exact TotallyRanked.le_trans hfirst (h.ordered.first_le (by simp [hsize]) ha)

theorem wellFormed_offer (h : heap.WellFormed) (key : κ) (weight : W) :
    (heap.offer key weight).WellFormed ∧
      (heap.offer key weight).capacity = heap.capacity ∧
        Heaviest Prod.snd heap.capacity ((key, weight) :: heap.toList)
          (heap.offer key weight).toList := by
  unfold offer offer?
  by_cases haccepts : heap.accepts weight = true
  · rw [if_pos haccepts]
    exact wellFormed_insert h key weight
  · rw [if_neg haccepts]
    obtain ⟨hfull, hle⟩ := le_of_not_accepts h haccepts
    have hsize := h.size_le
    refine ⟨h, rfl, [(key, weight)], (List.perm_append_singleton _ _).symm, ?_, ?_⟩
    · rw [List.length_cons]
      change heap.size = min heap.capacity (heap.size + 1)
      omega
    · intro a ha d hd
      rw [List.mem_singleton.mp hd]
      exact hle a ha

/-- After any offers a heap holds the heaviest of what it held and was offered. -/
theorem wellFormed_offerAll (entries : List (κ × W)) (h : heap.WellFormed) :
    (heap.offerAll entries).WellFormed ∧
      (heap.offerAll entries).capacity = heap.capacity ∧
        Heaviest Prod.snd heap.capacity (entries ++ heap.toList)
          (heap.offerAll entries).toList := by
  induction entries generalizing heap with
  | nil =>
      have hle := h.size_le
      refine ⟨h, rfl, [], by simp [offerAll], ?_, by simp⟩
      change heap.size = min heap.capacity heap.size
      omega
  | cons entry rest ih =>
      obtain ⟨hoffer, hcapacity, hheaviest⟩ := wellFormed_offer h entry.1 entry.2
      obtain ⟨hall, hallCapacity, hallHeaviest⟩ := ih hoffer
      rw [hcapacity] at hallCapacity hallHeaviest
      refine ⟨hall, hallCapacity, ?_⟩
      have hsuffices := (Suffices.refl rest).append hheaviest.toSuffices
      exact (hallHeaviest.of_suffices hsuffices).of_perm List.perm_middle.symm

theorem heaviest_offerAll_empty {capacity : Nat} (capacity_pos : 0 < capacity)
    (entries : List (κ × W)) :
    Heaviest Prod.snd capacity entries
      ((empty capacity capacity_pos).offerAll entries).toList := by
  have hempty := (wellFormed_offerAll entries
    (wellFormed_empty capacity capacity_pos)).2.2
  simpa [toList, empty] using hempty

theorem ascending_drainAscending (h : Ordered heap.entries) :
    heap.drainAscending.Pairwise fun a b => Ranked.le a.2 b.2 = true := by
  induction hsize : heap.size using Nat.strongRecOn generalizing heap with
  | ind n ih =>
      rw [drainAscending]
      split
      · rename_i entry rest hremove
        obtain ⟨hrest, _, _, hlightest⟩ := removeMin?_spec h hremove
        have hrestSize := size_removeMin? hremove
        rw [List.pairwise_cons]
        refine ⟨fun a ha => ?_, ih rest.size (by omega) hrest rfl⟩
        exact hlightest a ((drainAscending_perm rest).mem_iff.mp ha)
      · exact .nil

theorem descending_drainDescending (h : Ordered heap.entries) :
    Ranked.Descending Prod.snd heap.drainDescending := by
  rw [Ranked.Descending, drainDescending, List.pairwise_reverse]
  exact ascending_drainAscending h

section Offers

variable {α : Type} {capacity : Nat} (capacity_pos : 0 < capacity) (f : α → κ)
  (weight : α → W) (offers : List α)

/-- However a heap is listed in order, the list is a selection from what the heap was
offered. -/
theorem heaviest_of_perm_offerAll {listed : List (κ × W)}
    (hperm : listed.Perm ((empty capacity capacity_pos).offerAll
      (offers.map fun a => (f a, weight a))).toList)
    (hsorted : Ranked.Descending Prod.snd listed) :
    ∃ kept, listed = kept.map (fun a => (f a, weight a)) ∧
      Heaviest weight capacity offers kept ∧ Ranked.Descending weight kept := by
  have hheaviest := (heaviest_offerAll_empty capacity_pos
    (offers.map fun a => (f a, weight a))).of_perm_kept hperm
  obtain ⟨kept, rfl, hkept⟩ := hheaviest.exists_of_map
  exact ⟨kept, rfl, hkept, List.pairwise_map.mp hsorted⟩

theorem sorted_offerAll_empty :
    ∃ kept, ((empty capacity capacity_pos).offerAll
          (offers.map fun a => (f a, weight a))).sorted =
        kept.map (fun a => (f a, weight a)) ∧
      Heaviest weight capacity offers kept ∧ Ranked.Descending weight kept :=
  heaviest_of_perm_offerAll capacity_pos f weight offers
    (Ranked.sortDescending_perm _ _) (Ranked.descending_sortDescending _ _)

theorem drainDescending_offerAll_empty :
    ∃ kept, ((empty capacity capacity_pos).offerAll
          (offers.map fun a => (f a, weight a))).drainDescending =
        kept.map (fun a => (f a, weight a)) ∧
      Heaviest weight capacity offers kept ∧ Ranked.Descending weight kept := by
  have hordered := (wellFormed_offerAll (offers.map fun a => (f a, weight a))
    (wellFormed_empty capacity capacity_pos)).1.ordered
  exact heaviest_of_perm_offerAll capacity_pos f weight offers
    (drainDescending_perm _) (descending_drainDescending hordered)

end Offers

end Operations

end WeightedParsing.BoundedHeap
