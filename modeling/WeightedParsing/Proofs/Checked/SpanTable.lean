import Mathlib.Data.List.FinRange
import WeightedParsing.Checked
import WeightedParsing.Proofs.Chart.SpanTable

/-!
# What checked computations give

Where a checked computation is shown to give what the unchecked one gives, no fault is met,
and nothing hangs on values that stand in for missing ones.  What sorts may break off, and
gives the unchecked value unless it does.
-/

namespace WeightedParsing

theorem exists_of_bind_eq_ok {ε α β : Type} {computed : Except ε α} {next : α → Except ε β}
    {b : β} (h : computed >>= next = .ok b) :
    ∃ a, computed = .ok a ∧ next a = .ok b := by
  cases computed with
  | error => contradiction
  | ok a => exact ⟨a, rfl, h⟩

namespace Checked

variable {α β : Type}

theorem sub_eq {minuend subtrahend : Nat} (h : subtrahend ≤ minuend) :
    sub minuend subtrahend = .ok (minuend - subtrahend) := if_pos h

theorem getAt_eq {items : Array α} {i : Nat} (h : i < items.size) :
    getAt items i = .ok items[i] := dif_pos h

theorem ok_bind (a : α) (f : α → Checked β) : (Except.ok a >>= f) = f a := rfl

/-- A computation gives a value.  Unless what it sorts is fit for it, it may break off at a
sort instead, and meets no other fault. -/
def Yields (sortable : Prop) (computed : Checked α) (a : α) : Prop :=
  computed = .ok a ∨ ¬ sortable ∧ computed = .error (.misuse .noTotalOrder)

section Yields

variable {sortable : Prop}

theorem Yields.eq_ok {computed : Checked α} {a : α} (h : Yields sortable computed a)
    (hsortable : sortable) : computed = .ok a :=
  h.resolve_right fun hbreak => hbreak.1 hsortable

theorem Yields.bind {computed : Checked α} {next : α → Checked β} {a : α} {b : β}
    (hfirst : Yields sortable computed a) (hnext : Yields sortable (next a) b) :
    Yields sortable (computed >>= next) b := by
  rcases hfirst with rfl | ⟨hsortable, rfl⟩
  · exact hnext
  · exact .inr ⟨hsortable, rfl⟩

theorem yields_mapM {f : α → Checked β} {g : α → β} {entries : List α}
    (h : ∀ a ∈ entries, Yields sortable (f a) (g a)) :
    Yields sortable (entries.mapM f) (entries.map g) := by
  induction entries with
  | nil => exact .inl rfl
  | cons a rest ih =>
      rw [List.forall_mem_cons] at h
      rw [List.mapM_cons]
      exact h.1.bind ((ih h.2).bind (.inl rfl))

theorem yields_gather {f : α → Checked (List β)} {g : α → List β} {entries : List α}
    (h : ∀ a ∈ entries, Yields sortable (f a) (g a)) :
    Yields sortable (gather f entries) (entries.flatMap g) := by
  rw [gather, List.flatMap_def]
  exact (yields_mapM h).bind (.inl rfl)

end Yields

theorem mapM_eq {f : α → Checked β} {g : α → β} {entries : List α}
    (h : ∀ a ∈ entries, f a = .ok (g a)) : entries.mapM f = .ok (entries.map g) :=
  (yields_mapM fun a ha => .inl (h a ha)).eq_ok trivial

theorem gather_eq {f : α → Checked (List β)} {g : α → List β} {entries : List α}
    (h : ∀ a ∈ entries, f a = .ok (g a)) : gather f entries = .ok (entries.flatMap g) :=
  (yields_gather fun a ha => .inl (h a ha)).eq_ok trivial

theorem foldlM_eq {f : β → α → Checked β} {g : β → α → β} {entries : List α}
    (h : ∀ a ∈ entries, ∀ b, f b a = .ok (g b a)) (start : β) :
    entries.foldlM f start = .ok (entries.foldl g start) := by
  induction entries generalizing start with
  | nil => rfl
  | cons a rest ih =>
      rw [List.forall_mem_cons] at h
      rw [List.foldlM_cons, h.1]
      exact ih h.2 _

/-- Whether reading gives, within a table of a size, what looking up gives. -/
def Reads (size : Nat) (read : (first last : Nat) → Checked α)
    (look : (first last : Nat) → α) : Prop :=
  ∀ first last, first ≤ last → last < size → read first last = .ok (look first last)

end Checked

namespace SpanTable

variable {α : Type}

theorem reads (table : SpanTable α) : Checked.Reads table.size table.read table.get :=
  fun _ _ hspan hlast => if_pos ⟨hspan, hlast⟩

theorem writeWidth_eq {table : SpanTable α} {width : Nat} (h : width < table.rows.size)
    (f : Nat → α) :
    table.writeWidth width ((List.range (table.size - width)).map f) =
      .ok (table.fillWidth width f) := by
  have hrow : ((List.range (table.size - width)).map f).toArray =
      Array.ofFn fun first : Fin (table.size - width) => f first := by
    rw [← List.map_coe_finRange_eq_range, List.map_map, ← Array.toList_inj, Array.toList_ofFn,
      List.ofFn_eq_map]
    rfl
  rw [writeWidth, if_pos h, fillWidth, hrow]

end SpanTable

namespace Checked

variable {α : Type}

section Sweep

variable {size : Nat} {blank : α}
  {cell : ((first last : Nat) → Checked α) → (first last : Nat) → Checked α}
  {plain : ((first last : Nat) → α) → (first last : Nat) → α}
  (hcell : ∀ read look, Reads size read look → ∀ first last, first ≤ last → last < size →
    cell read first last = .ok (plain look first last))

include hcell

theorem fillWidth_eq {table : SpanTable α} (hsize : table.size = size)
    (hrows : table.rows.size = size) {width : Nat} (hwidth : width < size) :
    fillWidth cell table width =
      .ok (table.fillWidth width fun first => plain table.get first (first + width)) := by
  subst hsize
  have hrow : ((List.range (table.size - width)).mapM fun first =>
      cell table.read first (first + width)) =
        .ok ((List.range (table.size - width)).map fun first =>
          plain table.get first (first + width)) := by
    refine mapM_eq fun first hfirst => ?_
    rw [List.mem_range] at hfirst
    exact hcell _ _ table.reads first _ (Nat.le_add_right _ _) (by omega)
  rw [fillWidth, sub_eq (Nat.le_of_lt hwidth), ok_bind, hrow, ok_bind]
  exact SpanTable.writeWidth_eq (by omega) _

/-- A sweep with checked cells fills the table that the plain cells fill. -/
theorem sweep_eq {widths : List Nat} (hwidths : ∀ width ∈ widths, width < size) :
    sweep size blank cell widths = .ok (SpanTable.sweep size blank plain widths) := by
  induction widths using List.reverseRecOn with
  | nil => rfl
  | append_singleton widths width ih =>
      rw [List.forall_mem_append, List.forall_mem_singleton] at hwidths
      obtain ⟨hsize, hrows⟩ := @SpanTable.sweep_shape α size blank plain widths
      have hbefore := ih hwidths.1
      rw [sweep] at hbefore ⊢
      rw [List.foldlM_append, hbefore, ok_bind, SpanTable.sweep_append_singleton,
        List.foldlM_cons, fillWidth_eq hcell hsize hrows hwidths.2]
      rfl

end Sweep

end Checked

end WeightedParsing
