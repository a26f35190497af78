import Mathlib.Data.List.Nodup
import Mathlib.Data.List.Range
import WeightedParsing.Chart.SpanTable

/-!
# Reading a swept table

A sweep fills one width after the other, and a cell sees the widths filled before
it.  When a cell only asks for those, it may as well look into the finished
table: every cell of a swept table then satisfies the equation that it was
computed by.
-/

namespace WeightedParsing

namespace SpanTable

variable {α β : Type}

@[simp] theorem size_fillWidth (table : SpanTable α) (width : Nat) (f : Nat → α) :
    (table.fillWidth width f).size = table.size := rfl

@[simp] theorem rowCount_fillWidth (table : SpanTable α) (width : Nat)
    (f : Nat → α) : (table.fillWidth width f).rows.size = table.rows.size := by
  simp [fillWidth]

theorem get_fillWidth_self {table : SpanTable α} {first last : Nat} (f : Nat → α)
    (hrows : table.rows.size = table.size) (hspan : first ≤ last)
    (hlast : last < table.size) :
    (table.fillWidth (last - first) f).get first last = f first := by
  have hwidth : last - first < table.rows.size := by omega
  have hfirst : first < table.size - (last - first) := by omega
  simp [get, fillWidth, hspan, Array.getD_eq_getD_getElem?,
    Array.getElem?_setIfInBounds_self_of_lt hwidth, hfirst]

theorem get_fillWidth_of_ne {table : SpanTable α} {first last width : Nat}
    (f : Nat → α) (hne : width ≠ last - first) :
    (table.fillWidth width f).get first last = table.get first last := by
  simp [get, fillWidth, Array.getD_eq_getD_getElem?,
    Array.getElem?_setIfInBounds_ne hne]

section Sweep

variable {size : Nat} {blank : α}
  {cell : (Nat → Nat → α) → (first last : Nat) → α}

theorem sweep_append_singleton (widths : List Nat) (width : Nat) :
    sweep size blank cell (widths ++ [width]) =
      (sweep size blank cell widths).fillWidth width fun first =>
        cell (sweep size blank cell widths).get first (first + width) := by
  simp [sweep, List.foldl_append]

theorem sweep_shape (widths : List Nat) :
    (sweep size blank cell widths).size = size ∧
      (sweep size blank cell widths).rows.size = size := by
  induction widths using List.reverseRecOn with
  | nil => simp [sweep, empty]
  | append_singleton widths width ih =>
      rw [sweep_append_singleton]
      simpa using ih

@[simp] theorem size_sweep (widths : List Nat) :
    (sweep size blank cell widths).size = size :=
  (sweep_shape widths).1

theorem get_sweep_append {before after : List Nat} {first last : Nat}
    (hafter : last - first ∉ after) :
    (sweep size blank cell (before ++ after)).get first last =
      (sweep size blank cell before).get first last := by
  induction after using List.reverseRecOn with
  | nil => simp
  | append_singleton after width ih =>
      rw [List.mem_append, List.mem_singleton, not_or] at hafter
      rw [← List.append_assoc, sweep_append_singleton,
        get_fillWidth_of_ne _ (Ne.symm hafter.2), ih hafter.1]

theorem get_sweep_of_split {widths before after : List Nat} {first last : Nat}
    (hsplit : widths = before ++ (last - first) :: after) (hnodup : widths.Nodup)
    (hspan : first ≤ last) (hlast : last < size)
    (hlocal : ∀ look look' : Nat → Nat → α,
      (∀ s e, s ≤ e → e < size → e - s ∈ before → look s e = look' s e) →
        cell look first last = cell look' first last) :
    (sweep size blank cell widths).get first last =
      cell (sweep size blank cell widths).get first last := by
  subst hsplit
  have hdistinct := List.nodup_append.mp hnodup
  have hafter : last - first ∉ after := (List.nodup_cons.mp hdistinct.2.1).1
  have hfilled : (sweep size blank cell (before ++ (last - first) :: after)).get
      first last = cell (sweep size blank cell before).get first last := by
    rw [List.append_cons, get_sweep_append hafter, sweep_append_singleton,
      get_fillWidth_self _ _ hspan (by simpa using hlast)]
    · rw [Nat.add_sub_cancel' hspan]
    · rw [size_sweep, (sweep_shape before).2]
  rw [hfilled]
  apply hlocal
  intro s e _ _ hbefore
  apply (get_sweep_append _).symm
  intro hmem
  exact hdistinct.2.2 _ hbefore _ hmem rfl

theorem range_split {size width : Nat} (h : width < size) :
    ∃ after, List.range size = List.range width ++ width :: after ∧
      ∀ w, w ∈ after ↔ width < w ∧ w < size := by
  obtain ⟨k, rfl⟩ : ∃ k, size = width + (k + 1) := ⟨size - width - 1, by omega⟩
  refine ⟨(List.range k).map fun i => width + (i + 1), ?_, ?_⟩
  · rw [List.range_add, List.range_succ_eq_map]
    simp [Function.comp_def]
  · intro w
    rw [List.mem_map]
    constructor
    · rintro ⟨i, hi, rfl⟩
      rw [List.mem_range] at hi
      omega
    · intro hw
      exact ⟨w - width - 1, by rw [List.mem_range]; omega, by omega⟩

/-- A table that is filled from the narrow spans on satisfies the equation of a
cell that asks for narrower spans alone. -/
theorem get_sweep_widening {first last : Nat} (hspan : first ≤ last)
    (hlast : last < size)
    (hlocal : ∀ look look' : Nat → Nat → α,
      (∀ s e, s ≤ e → e < size → e - s < last - first → look s e = look' s e) →
        cell look first last = cell look' first last) :
    (sweep size blank cell (List.range size)).get first last =
      cell (sweep size blank cell (List.range size)).get first last := by
  obtain ⟨after, hsplit, _⟩ := range_split (show last - first < size by omega)
  apply get_sweep_of_split hsplit List.nodup_range hspan hlast
  intro look look' hlook
  apply hlocal
  intro s e hse he hlt
  exact hlook s e hse he (List.mem_range.mpr hlt)

/-- A table that is filled from the wide spans down satisfies the equation of a
cell that asks for wider spans alone. -/
theorem get_sweep_narrowing {first last : Nat} (hspan : first ≤ last)
    (hlast : last < size)
    (hlocal : ∀ look look' : Nat → Nat → α,
      (∀ s e, s ≤ e → e < size → last - first < e - s → look s e = look' s e) →
        cell look first last = cell look' first last) :
    (sweep size blank cell (List.range size).reverse).get first last =
      cell (sweep size blank cell (List.range size).reverse).get first last := by
  obtain ⟨after, hsplit, hafter⟩ := range_split (show last - first < size by omega)
  have hreverse : (List.range size).reverse =
      after.reverse ++ (last - first) :: (List.range (last - first)).reverse := by
    rw [hsplit]
    simp
  apply get_sweep_of_split hreverse (List.nodup_reverse.mpr List.nodup_range) hspan
    hlast
  intro look look' hlook
  apply hlocal
  intro s e hse he hlt
  apply hlook s e hse he
  rw [List.mem_reverse, hafter]
  omega

end Sweep

/-! ## Two tables -/

theorem get_fillWidth {table : SpanTable α} (hrows : table.rows.size = table.size)
    (f : Nat → α) (width first last : Nat) :
    (table.fillWidth width f).get first last =
      if first ≤ last ∧ last - first = width then
        if last < table.size then f first else table.blank
      else table.get first last := by
  by_cases hwidth : last - first = width
  · subst hwidth
    by_cases hspan : first ≤ last
    · rw [if_pos ⟨hspan, rfl⟩]
      split
      · rename_i hlast
        exact get_fillWidth_self f hrows hspan hlast
      · rename_i hlast
        have hrow : (Array.ofFn fun i : Fin (table.size - (last - first)) => f i)[first]? =
            none := Array.getElem?_eq_none (by simp; omega)
        simp only [get, fillWidth, hspan, if_true, Array.getD_eq_getD_getElem?,
          Array.getElem?_setIfInBounds]
        split
        · rw [Option.getD_some, hrow, Option.getD_none]
        · rfl
    · simp [get, hspan, fillWidth]
  · rw [get_fillWidth_of_ne f (Ne.symm hwidth), if_neg (fun h => hwidth h.2)]

theorem get_empty (size : Nat) (blank : α) (first last : Nat) :
    (empty size blank).get first last = blank := by
  simp only [get, empty, Array.getD_eq_getD_getElem?, Array.getElem?_replicate]
  split
  · split <;> rfl
  · rfl

theorem blank_sweep {size : Nat} {blank : α}
    {cell : (Nat → Nat → α) → (first last : Nat) → α} (widths : List Nat) :
    (sweep size blank cell widths).blank = blank := by
  induction widths using List.reverseRecOn with
  | nil => rfl
  | append_singleton widths width ih =>
      rw [sweep_append_singleton]
      exact ih

/-- If two cells are related whenever they look into related tables, then so are the
cells of the tables that are filled by them. -/
theorem get_sweep_related {R : α → β → Prop} {size : Nat} {blank : α} {blank' : β}
    {cell : (Nat → Nat → α) → (first last : Nat) → α}
    {cell' : (Nat → Nat → β) → (first last : Nat) → β} (hblank : R blank blank')
    (hcell : ∀ look look', (∀ s e, R (look s e) (look' s e)) →
      ∀ s e, R (cell look s e) (cell' look' s e))
    (widths : List Nat) (first last : Nat) :
    R ((sweep size blank cell widths).get first last)
      ((sweep size blank' cell' widths).get first last) := by
  induction widths using List.reverseRecOn generalizing first last with
  | nil =>
      change R ((empty size blank).get first last) ((empty size blank').get first last)
      rw [get_empty, get_empty]
      exact hblank
  | append_singleton widths width ih =>
      have hshape := @sweep_shape α size blank cell widths
      have hshape' := @sweep_shape β size blank' cell' widths
      rw [sweep_append_singleton, sweep_append_singleton,
        get_fillWidth (hshape.2.trans hshape.1.symm),
        get_fillWidth (hshape'.2.trans hshape'.1.symm), hshape.1, hshape'.1, blank_sweep,
        blank_sweep]
      split
      · split
        · exact hcell _ _ ih _ _
        · exact hblank
      · exact ih first last

theorem get_mapSpans_related {γ δ : Type} {R : γ → δ → Prop} {table : SpanTable α}
    {table' : SpanTable β} {blank : γ} {blank' : δ} {f : (first last : Nat) → α → γ}
    {f' : (first last : Nat) → β → δ} (hsize : table.size = table'.size)
    (hblank : R blank blank')
    (hcell : ∀ s e, R (f s e (table.get s e)) (f' s e (table'.get s e)))
    (first last : Nat) :
    R ((table.mapSpans blank f).get first last)
      ((table'.mapSpans blank' f').get first last) := by
  unfold mapSpans
  rw [hsize]
  exact get_sweep_related hblank (fun _ _ _ => hcell) _ first last

theorem get_mapSpans {table : SpanTable α} {blank : β}
    {f : (first last : Nat) → α → β} {first last : Nat} (hspan : first ≤ last)
    (hlast : last < table.size) :
    (table.mapSpans blank f).get first last = f first last (table.get first last) := by
  unfold mapSpans
  rw [get_sweep_widening hspan hlast]
  intro _ _ _
  rfl

end SpanTable

/-! ## Lists of spans -/

theorem mem_spansWidening {size : Nat} {span : Nat × Nat} :
    span ∈ spansWidening size ↔ span.1 ≤ span.2 ∧ span.2 < size := by
  simp only [spansWidening, spansOfWidth, List.mem_flatMap, List.mem_map,
    List.mem_range]
  constructor
  · rintro ⟨width, hwidth, first, hfirst, rfl⟩
    constructor <;> dsimp only <;> omega
  · rintro ⟨hspan, hlast⟩
    refine ⟨span.2 - span.1, by omega, span.1, by omega, ?_⟩
    exact Prod.ext rfl (by dsimp only; omega)

theorem nodup_spansWidening (size : Nat) : (spansWidening size).Nodup := by
  rw [spansWidening, List.nodup_flatMap]
  constructor
  · intro width _
    exact List.nodup_range.map fun _ _ h => (Prod.mk.inj h).1
  · apply List.nodup_range.imp
    intro width width' hne span hspan hspan'
    obtain ⟨first, _, rfl⟩ := List.mem_map.mp hspan
    obtain ⟨first', _, heq⟩ := List.mem_map.mp hspan'
    obtain ⟨hfirst, hlast⟩ := Prod.mk.inj heq
    omega

theorem spansNarrowing_perm (size : Nat) :
    (spansNarrowing size).Perm (spansWidening size) :=
  (List.reverse_perm _).flatMap_right _

end WeightedParsing
