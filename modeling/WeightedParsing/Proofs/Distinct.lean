import Mathlib.Data.List.Forall2
import Mathlib.Data.List.Induction
import Mathlib.Data.List.Nodup

/-!
# Lists without repetitions

What is added one by one, and only if it is new, is listed in the order in which it
first came.  So the lemmas follow such a list by its last element.
-/

namespace WeightedParsing

variable {α β : Type} [DecidableEq α] [DecidableEq β]

theorem eraseDups_concat (as : List α) (a : α) :
    (as ++ [a]).eraseDups = if a ∈ as then as.eraseDups else as.eraseDups ++ [a] := by
  rw [List.eraseDups_append]
  split
  · rename_i hmem
    simp [List.removeAll, hmem]
  · rename_i hmem
    simp [List.removeAll, hmem, List.eraseDups_cons]

theorem nodup_eraseDups (as : List α) : as.eraseDups.Nodup := by
  induction as using List.reverseRecOn with
  | nil => exact .nil
  | append_singleton as a ih =>
      rw [eraseDups_concat]
      split
      · exact ih
      · rename_i hnew
        rw [← List.concat_eq_append]
        exact ih.concat (List.mem_eraseDups.not.mpr hnew)

theorem eraseDups_eraseDups (as : List α) : as.eraseDups.eraseDups = as.eraseDups := by
  induction as using List.reverseRecOn with
  | nil => rfl
  | append_singleton as a ih =>
      rw [eraseDups_concat]
      split
      · exact ih
      · rename_i hmem
        rw [eraseDups_concat, if_neg (by simpa using hmem), ih]

omit [DecidableEq α] [DecidableEq β] in
theorem exists_mem_of_forall₂ {r : α → β → Prop} {as : List α} {bs : List β}
    (h : List.Forall₂ r as bs) {a : α} (ha : a ∈ as) : ∃ b ∈ bs, r a b := by
  induction h with
  | nil => contradiction
  | cons hab _ ih =>
      rcases List.mem_cons.mp ha with rfl | ha
      · exact ⟨_, List.mem_cons_self, hab⟩
      · obtain ⟨b, hb, hr⟩ := ih ha
        exact ⟨b, List.mem_cons_of_mem _ hb, hr⟩

/-- A pair joins two lists that match, unless it is among them. -/
theorem forall₂_eraseDups_concat {r : α → β → Prop} (hr : Relator.BiUnique r)
    {as : List α} {bs : List β} (h : List.Forall₂ r as bs.eraseDups) {a : α} {b : β}
    (hab : r a b) :
    List.Forall₂ r (if a ∈ as then as else as ++ [a]) (bs ++ [b]).eraseDups := by
  have hmem : a ∈ as ↔ b ∈ bs := (List.rel_mem hr hab h).trans List.mem_eraseDups
  rw [eraseDups_concat]
  simp only [hmem]
  split
  · exact h
  · exact List.rel_append h (.cons hab .nil)

end WeightedParsing
