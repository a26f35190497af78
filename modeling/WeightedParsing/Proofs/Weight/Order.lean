import Mathlib.Data.List.Basic
import WeightedParsing.Weight.Ranked

/-!
# Totally ranked weights

Heaps and sorts ask for no law of their comparisons.  Their results are in order
when the weights are totally ranked: any two compare, the weak comparison is
transitive, and the strict one is its negation the other way around.
-/

namespace WeightedParsing

/-- The comparisons are those of a total order, except that different weights may
rank alike. -/
class TotallyRanked (W : Type) [Ranked W] : Prop where
  le_total : ∀ a b : W, Ranked.le a b = true ∨ Ranked.le b a = true
  le_trans : ∀ {a b c : W}, Ranked.le a b = true → Ranked.le b c = true →
    Ranked.le a c = true
  lt_eq_not_le : ∀ a b : W, Ranked.lt a b = !Ranked.le b a

namespace Ranked

variable {W α : Type} [Ranked W]

theorem insertReversed_perm (weight : α → W) (x : α) (entries : List α) :
    (insertReversed weight x entries).Perm (x :: entries) := by
  induction entries with
  | nil => exact .refl _
  | cons y rest ih =>
      rw [insertReversed]
      split
      · exact (ih.cons y).trans (.swap x y rest)
      · exact .refl _

theorem sortDescending_perm (weight : α → W) (entries : List α) :
    (sortDescending weight entries).Perm entries := by
  have hfold : ∀ sorted : List α,
      (entries.foldl (fun sorted x => insertReversed weight x sorted) sorted).Perm
        (entries ++ sorted) := by
    induction entries with
    | nil => intro sorted; exact .refl _
    | cons x rest ih =>
        intro sorted
        exact ((ih _).trans ((insertReversed_perm weight x sorted).append_left rest)).trans
          List.perm_middle
  have hall := hfold []
  rw [List.append_nil] at hall
  exact (List.reverse_perm _).trans hall

theorem insertReversed_stable {R : α → α → Prop} {weight : α → W} {x : α}
    {sorted : List α}
    (h : sorted.Pairwise fun b a => lt (weight b) (weight a) = true ∨ R a b)
    (hx : ∀ a ∈ sorted, R a x) :
    (insertReversed weight x sorted).Pairwise fun b a =>
      lt (weight b) (weight a) = true ∨ R a b := by
  induction sorted with
  | nil => exact List.pairwise_singleton _ _
  | cons y rest ih =>
      rw [List.pairwise_cons] at h
      rw [insertReversed]
      split
      · rename_i hlt
        rw [List.pairwise_cons]
        refine ⟨?_, ih h.2 fun a ha => hx a (List.mem_cons_of_mem y ha)⟩
        intro a ha
        rcases List.mem_cons.mp ((insertReversed_perm weight x rest).mem_iff.mp ha)
          with rfl | ha
        · exact .inl hlt
        · exact h.1 a ha
      · rw [List.pairwise_cons, List.pairwise_cons]
        exact ⟨fun a ha => .inr (hx a ha), h⟩

/-- The sort is stable: of two entries in the sorted list the first is heavier, or it came
first before. -/
theorem sortDescending_stable {R : α → α → Prop} (weight : α → W) {entries : List α}
    (h : entries.Pairwise R) :
    (sortDescending weight entries).Pairwise fun a b =>
      lt (weight b) (weight a) = true ∨ R a b := by
  have hfold : ∀ sorted : List α,
      (sorted.Pairwise fun b a => lt (weight b) (weight a) = true ∨ R a b) →
      (∀ a ∈ sorted, ∀ x ∈ entries, R a x) →
      (entries.foldl (fun sorted x => insertReversed weight x sorted) sorted).Pairwise
        fun b a => lt (weight b) (weight a) = true ∨ R a b := by
    induction entries with
    | nil => intro sorted hsorted _; exact hsorted
    | cons x rest ih =>
        intro sorted hsorted hbefore
        rw [List.pairwise_cons] at h
        apply ih h.2
        · exact insertReversed_stable hsorted fun a ha =>
            hbefore a ha x List.mem_cons_self
        · intro a ha y hy
          rcases List.mem_cons.mp ((insertReversed_perm weight x sorted).mem_iff.mp ha)
            with rfl | ha
          · exact h.1 y hy
          · exact hbefore a ha y (List.mem_cons_of_mem x hy)
  rw [sortDescending, List.pairwise_reverse]
  exact hfold [] .nil (List.forall_mem_nil _)

variable [TotallyRanked W]

theorem le_refl (a : W) : le a a = true :=
  (TotallyRanked.le_total a a).elim id id

theorem lt_iff_not_le {a b : W} : lt a b = true ↔ ¬le b a = true := by
  simp [TotallyRanked.lt_eq_not_le]

theorem le_of_lt {a b : W} (h : lt a b = true) : le a b = true :=
  (TotallyRanked.le_total a b).resolve_right (lt_iff_not_le.mp h)

theorem le_of_not_lt {a b : W} (h : ¬lt a b = true) : le b a = true := by
  rw [lt_iff_not_le, not_not] at h
  exact h

/-- Any list is fit to be sorted by totally ranked weights. -/
theorem sortable (weight : α → W) (entries : List α) : Sortable weight entries := by
  right
  constructor
  · intro x _ y _ hxy
    rw [TotallyRanked.lt_eq_not_le, le_of_lt hxy]
    rfl
  · intro x _ y _ z _ hxz
    by_contra hneither
    rw [not_or] at hneither
    exact lt_iff_not_le.mp hxz
      (TotallyRanked.le_trans (le_of_not_lt hneither.2) (le_of_not_lt hneither.1))

/-- The list has its heaviest entries first. -/
def Descending (weight : α → W) (entries : List α) : Prop :=
  entries.Pairwise fun a b => le (weight b) (weight a) = true

theorem Descending.le_head {weight : α → W} {a b : α} {rest : List α}
    (h : Descending weight (a :: rest)) (hb : b ∈ a :: rest) :
    le (weight b) (weight a) = true := by
  rcases List.mem_cons.mp hb with rfl | hb
  · exact le_refl _
  · exact (List.pairwise_cons.mp h).1 b hb

omit [TotallyRanked W] in
/-- Two lists of the same entries, both with the heaviest first, read the same weights. -/
theorem Descending.map_eq_of_perm {weight : α → W} {entries others : List α}
    (hantisymm : ∀ a b : W, le a b = true → le b a = true → a = b)
    (hperm : entries.Perm others) (h : Descending weight entries)
    (h' : Descending weight others) : entries.map weight = others.map weight := by
  unfold Descending at h h'
  have hsorted : (entries.map weight).Pairwise fun v w => le w v = true :=
    List.pairwise_map.mpr h
  have hsorted' : (others.map weight).Pairwise fun v w => le w v = true :=
    List.pairwise_map.mpr h'
  refine (hperm.map weight).eq_of_pairwise ?_ hsorted hsorted'
  intro v w _ _ hwv hvw
  exact hantisymm v w hvw hwv

/-- The list has its lightest entries first. -/
def Ascending (weight : α → W) (entries : List α) : Prop :=
  entries.Pairwise fun a b => le (weight a) (weight b) = true

theorem ascending_insertReversed {weight : α → W} (x : α) {sorted : List α}
    (h : Ascending weight sorted) : Ascending weight (insertReversed weight x sorted) := by
  unfold Ascending at h ⊢
  induction sorted with
  | nil => exact List.pairwise_singleton _ _
  | cons y rest ih =>
      rw [List.pairwise_cons] at h
      rw [insertReversed]
      split
      · rename_i hlt
        rw [List.pairwise_cons]
        refine ⟨?_, ih h.2⟩
        intro b hb
        rcases List.mem_cons.mp ((insertReversed_perm weight x rest).mem_iff.mp hb)
          with rfl | hb
        · exact le_of_lt hlt
        · exact h.1 b hb
      · rename_i hlt
        have hxy := le_of_not_lt hlt
        rw [List.pairwise_cons, List.pairwise_cons]
        refine ⟨?_, h⟩
        intro b hb
        rcases List.mem_cons.mp hb with rfl | hb
        · exact hxy
        · exact TotallyRanked.le_trans hxy (h.1 b hb)

theorem descending_sortDescending (weight : α → W) (entries : List α) :
    Descending weight (sortDescending weight entries) := by
  have hfold : ∀ sorted : List α, Ascending weight sorted →
      Ascending weight
        (entries.foldl (fun sorted x => insertReversed weight x sorted) sorted) := by
    induction entries with
    | nil => intro sorted h; exact h
    | cons x rest ih => intro sorted h; exact ih _ (ascending_insertReversed x h)
  rw [Descending, sortDescending, List.pairwise_reverse]
  exact hfold [] List.Pairwise.nil

end Ranked

end WeightedParsing
