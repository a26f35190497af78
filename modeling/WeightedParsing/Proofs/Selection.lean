import Mathlib.Data.List.Count
import Mathlib.Data.List.Perm.Basic
import WeightedParsing.Proofs.Weight.Order

/-!
# Selections

A selection keeps the heaviest entries of a list, up to some number.  It can be
made in stages: entries may be left out early if as many entries as are wanted in
the end remain that rank no lower.  Such a reduced list suffices, and selecting
from it is selecting from the whole list.
-/

namespace WeightedParsing

variable {W α β : Type} [Ranked W]

def countFrom (weight : α → W) (least : W) (entries : List α) : Nat :=
  entries.countP fun a => Ranked.le least (weight a)

/-- `kept` are `count` entries of `all`, or all of them if there are no more, and
nothing left out outranks what is kept. -/
def Heaviest (weight : α → W) (count : Nat) (all kept : List α) : Prop :=
  ∃ dropped, all.Perm (kept ++ dropped) ∧ kept.length = min count all.length ∧
    ∀ a ∈ kept, ∀ d ∈ dropped, Ranked.le (weight d) (weight a) = true

/-- Everything of `all` that `part` leaves out is outranked, or equalled, by `count`
entries of `part`. -/
def Suffices (weight : α → W) (count : Nat) (part all : List α) : Prop :=
  ∃ dropped, all.Perm (part ++ dropped) ∧
    ∀ d ∈ dropped, count ≤ countFrom weight (weight d) part

section Counting

variable {weight : α → W}

theorem countFrom_append (least : W) (entries others : List α) :
    countFrom weight least (entries ++ others) =
      countFrom weight least entries + countFrom weight least others :=
  List.countP_append

theorem countFrom_perm {least : W} {entries others : List α}
    (h : entries.Perm others) :
    countFrom weight least entries = countFrom weight least others :=
  h.countP_eq _

theorem countFrom_pos_iff {least : W} {entries : List α} :
    0 < countFrom weight least entries ↔
      ∃ a ∈ entries, Ranked.le least (weight a) = true := by
  simp [countFrom, List.countP_pos_iff]

theorem le_countFrom_flatMap {f : α → List β} {rank : β → W} {least : W}
    {entries : List α} {p : α → Bool}
    (h : ∀ a ∈ entries, p a = true → ∃ b ∈ f a, Ranked.le least (rank b) = true) :
    entries.countP p ≤ countFrom rank least (entries.flatMap f) := by
  induction entries with
  | nil => simp
  | cons a rest ih =>
      have hrest := ih fun b hb => h b (List.mem_cons_of_mem _ hb)
      rw [List.flatMap_cons, countFrom_append, List.countP_cons]
      by_cases hp : p a = true
      · have hpos := countFrom_pos_iff.mpr (h a (by simp) hp)
        rw [if_pos hp]
        omega
      · rw [if_neg hp]
        omega

end Counting

theorem exists_eq_map_of_perm {f : α → β} {all : List α} {images : List β}
    (h : images.Perm (all.map f)) :
    ∃ entries : List α, images = entries.map f ∧ entries.Perm all := by
  have himage : (Relation.Comp (· = List.map f ·) List.Perm) images all := by
    rw [List.eq_map_comp_perm]
    exact h
  exact himage

namespace Heaviest

variable {weight : α → W} {count : Nat} {all kept : List α}

theorem of_perm {all' : List α} (h : Heaviest weight count all kept)
    (hperm : all'.Perm all) : Heaviest weight count all' kept := by
  obtain ⟨dropped, hall, hlength, hle⟩ := h
  exact ⟨dropped, hperm.trans hall, by rw [hlength, hperm.length_eq], hle⟩

theorem mem {a : α} (h : Heaviest weight count all kept) (ha : a ∈ kept) : a ∈ all := by
  obtain ⟨dropped, hall, _, _⟩ := h
  exact hall.mem_iff.mpr (List.mem_append_left _ ha)

theorem nodup_map {f : α → β} (h : Heaviest weight count all kept)
    (hall : (all.map f).Nodup) : (kept.map f).Nodup := by
  obtain ⟨dropped, hperm, _, _⟩ := h
  have hmap := (hperm.map f).nodup_iff.mp hall
  rw [List.map_append] at hmap
  exact (List.nodup_append.mp hmap).1

theorem nodup (h : Heaviest weight count all kept) (hall : all.Nodup) : kept.Nodup := by
  have hmap := h.nodup_map (f := id) (by rwa [List.map_id])
  rwa [List.map_id] at hmap

theorem le_of_not_mem {a d : α} (h : Heaviest weight count all kept) (ha : a ∈ kept)
    (hd : d ∈ all) (hnot : d ∉ kept) : Ranked.le (weight d) (weight a) = true := by
  obtain ⟨dropped, hperm, _, hle⟩ := h
  rcases List.mem_append.mp (hperm.mem_iff.mp hd) with hd | hd
  · exact absurd hd hnot
  · exact hle a ha d hd

theorem all_eq_nil (h : Heaviest weight count all []) (count_pos : 0 < count) :
    all = [] := by
  obtain ⟨_, _, hlength, _⟩ := h
  rw [List.length_nil] at hlength
  exact List.length_eq_zero_iff.mp (by omega)

/-- A selection with room for all entries keeps them all. -/
theorem perm_of_length_le (h : Heaviest weight count all kept)
    (hroom : all.length ≤ count) : kept.Perm all := by
  obtain ⟨dropped, hperm, hlength, _⟩ := h
  have hnone : dropped = [] := by
    rw [hperm.length_eq, List.length_append] at hlength hroom
    exact List.length_eq_zero_iff.mp (by omega)
  rw [hnone, List.append_nil] at hperm
  exact hperm.symm

theorem length_eq_of_dropped {dropped : List α} {d : α}
    (hperm : all.Perm (kept ++ dropped)) (hlength : kept.length = min count all.length)
    (hd : d ∈ dropped) : kept.length = count := by
  have hpos := List.length_pos_of_mem hd
  rw [hperm.length_eq, List.length_append] at hlength
  omega

theorem toSuffices (h : Heaviest weight count all kept) :
    Suffices weight count kept all := by
  obtain ⟨dropped, hperm, hlength, hle⟩ := h
  refine ⟨dropped, hperm, ?_⟩
  intro d hd
  have hall : countFrom weight (weight d) kept = kept.length :=
    List.countP_eq_length.mpr fun a ha => hle a ha d hd
  have hfull := length_eq_of_dropped hperm hlength hd
  omega

theorem take (h : Heaviest weight count all kept)
    (hsorted : Ranked.Descending weight kept) {fewer : Nat} (hfewer : fewer ≤ count) :
    Heaviest weight fewer all (kept.take fewer) := by
  obtain ⟨dropped, hperm, hlength, hle⟩ := h
  have hsplit : kept = kept.take fewer ++ kept.drop fewer :=
    (List.take_append_drop fewer kept).symm
  refine ⟨kept.drop fewer ++ dropped, ?_, ?_, ?_⟩
  · rw [← List.append_assoc, ← hsplit]
    exact hperm
  · rw [List.length_take]
    omega
  · intro a ha d hd
    rcases List.mem_append.mp hd with hd | hd
    · rw [Ranked.Descending, hsplit] at hsorted
      exact (List.pairwise_append.mp hsorted).2.2 a ha d hd
    · exact hle a (List.mem_of_mem_take ha) d hd

theorem of_perm_kept {kept' : List α} (h : Heaviest weight count all kept)
    (hperm : kept'.Perm kept) : Heaviest weight count all kept' := by
  obtain ⟨dropped, hall, hlength, hle⟩ := h
  refine ⟨dropped, hall.trans (hperm.symm.append_right dropped), ?_, ?_⟩
  · rw [hperm.length_eq, hlength]
  · intro a ha
    exact hle a (hperm.mem_iff.mp ha)

theorem map {rank : β → W} (f : α → β)
    (h : Heaviest (fun a => rank (f a)) count all kept) :
    Heaviest rank count (all.map f) (kept.map f) := by
  obtain ⟨dropped, hperm, hlength, hle⟩ := h
  refine ⟨dropped.map f, ?_, by simpa using hlength, ?_⟩
  · rw [← List.map_append]
    exact hperm.map f
  · intro b hb d hd
    obtain ⟨a, ha, rfl⟩ := List.mem_map.mp hb
    obtain ⟨c, hc, rfl⟩ := List.mem_map.mp hd
    exact hle a ha c hc

theorem exists_of_map {rank : β → W} {f : α → β} {kept : List β}
    (h : Heaviest rank count (all.map f) kept) :
    ∃ entries, kept = entries.map f ∧
      Heaviest (fun a => rank (f a)) count all entries := by
  obtain ⟨dropped, hperm, hlength, hle⟩ := h
  obtain ⟨entries, hmap, hentries⟩ := exists_eq_map_of_perm hperm.symm
  obtain ⟨part, rest, rfl, rfl, rfl⟩ := List.append_eq_map_iff.mp hmap
  refine ⟨part, rfl, rest, hentries.symm, by simpa using hlength, ?_⟩
  intro a ha d hd
  exact hle _ (List.mem_map_of_mem ha) _ (List.mem_map_of_mem hd)

variable [TotallyRanked W]

/-- The weights of a sorted selection are the first weights of all in order, so a
smaller selection has the first weights of a larger one. -/
theorem map_weight_eq_take (h : Heaviest weight count all kept)
    (hsorted : Ranked.Descending weight kept)
    (hantisymm : ∀ a b : W, Ranked.le a b = true → Ranked.le b a = true → a = b) :
    kept.map weight =
      ((Ranked.sortDescending weight all).map weight).take count := by
  obtain ⟨dropped, hperm, hlength, hle⟩ := h
  have hrest := Ranked.sortDescending_perm weight dropped
  have hwhole : Ranked.Descending weight
      (kept ++ Ranked.sortDescending weight dropped) := by
    apply List.pairwise_append.mpr
    refine ⟨hsorted, Ranked.descending_sortDescending weight dropped, ?_⟩
    intro a ha d hd
    exact hle a ha d (hrest.mem_iff.mp hd)
  have hsame : (kept ++ Ranked.sortDescending weight dropped).map weight =
      (Ranked.sortDescending weight all).map weight := by
    apply Ranked.Descending.map_eq_of_perm hantisymm _ hwhole
      (Ranked.descending_sortDescending weight all)
    exact (hrest.append_left kept).trans
      (hperm.symm.trans (Ranked.sortDescending_perm weight all).symm)
  have hnone : ((Ranked.sortDescending weight dropped).map weight).take
      (count - kept.length) = [] := by
    cases dropped with
    | nil => simp [Ranked.sortDescending]
    | cons d rest =>
        rw [length_eq_of_dropped hperm hlength List.mem_cons_self, Nat.sub_self,
          List.take_zero]
  have hshort : (kept.map weight).length ≤ count := by
    rw [List.length_map]
    omega
  rw [← hsame, List.map_append, List.take_append, List.take_of_length_le hshort,
    List.length_map, hnone, List.append_nil]

theorem le_head {a : α} {rest : List α} (h : Heaviest weight count all (a :: rest))
    (hsorted : Ranked.Descending weight (a :: rest)) :
    ∀ b ∈ all, Ranked.le (weight b) (weight a) = true := by
  obtain ⟨dropped, hperm, _, hle⟩ := h
  intro b hb
  rcases List.mem_append.mp (hperm.mem_iff.mp hb) with hb | hb
  · exact hsorted.le_head hb
  · exact hle a List.mem_cons_self b hb

/-- A selection from entries that suffice is a selection from all entries. -/
theorem of_suffices {part : List α} (h : Heaviest weight count part kept)
    (hsuffices : Suffices weight count part all) : Heaviest weight count all kept := by
  obtain ⟨dropped, hperm, hlength, hle⟩ := h
  obtain ⟨skipped, hall, hskipped⟩ := hsuffices
  refine ⟨dropped ++ skipped, ?_, ?_, ?_⟩
  · rw [← List.append_assoc]
    exact hall.trans (hperm.append_right skipped)
  · cases skipped with
    | nil =>
        rw [List.append_nil] at hall
        rw [hlength, hall.length_eq]
    | cons d rest =>
        have hcount := hskipped d (by simp)
        have hpart : countFrom weight (weight d) part ≤ part.length :=
          List.countP_le_length
        have hmore : part.length ≤ all.length := by
          rw [hall.length_eq, List.length_append]
          omega
        omega
  · intro a ha d hd
    rcases List.mem_append.mp hd with hd | hd
    · exact hle a ha d hd
    · -- Otherwise not all entries that outrank `a` fit in beside it.
      by_contra hnot
      have hcount := hskipped d hd
      rw [countFrom_perm hperm, countFrom_append] at hcount
      have hkept : countFrom weight (weight d) kept < kept.length := by
        apply List.countP_lt_length_iff.mpr
        exact ⟨a, ha, by simpa using hnot⟩
      have hdropped : 0 < countFrom weight (weight d) dropped := by omega
      obtain ⟨b, hb, hdb⟩ := countFrom_pos_iff.mp hdropped
      exact hnot (TotallyRanked.le_trans hdb (hle a ha b hb))

end Heaviest

namespace Suffices

variable {weight : α → W} {count : Nat}

theorem refl (all : List α) : Suffices weight count all all :=
  ⟨[], by simp, by simp⟩

theorem append {part part' all all' : List α} (h : Suffices weight count part all)
    (h' : Suffices weight count part' all') :
    Suffices weight count (part ++ part') (all ++ all') := by
  obtain ⟨dropped, hperm, hcount⟩ := h
  obtain ⟨dropped', hperm', hcount'⟩ := h'
  refine ⟨dropped ++ dropped', ?_, ?_⟩
  · have hmiddle : (dropped ++ (part' ++ dropped')).Perm
        (part' ++ (dropped ++ dropped')) := by
      rw [← List.append_assoc, ← List.append_assoc]
      exact List.perm_append_comm.append_right dropped'
    rw [List.append_assoc]
    refine (hperm.append hperm').trans ?_
    rw [List.append_assoc]
    exact hmiddle.append_left part
  · intro d hd
    rw [countFrom_append]
    rcases List.mem_append.mp hd with hd | hd
    · have := hcount d hd
      omega
    · have := hcount' d hd
      omega

theorem flatMap {rank : β → W} {entries : List α} {f g : α → List β}
    (h : ∀ a ∈ entries, Suffices rank count (f a) (g a)) :
    Suffices rank count (entries.flatMap f) (entries.flatMap g) := by
  induction entries with
  | nil => exact refl _
  | cons a rest ih =>
      rw [List.flatMap_cons, List.flatMap_cons]
      exact (h a (by simp)).append (ih fun b hb => h b (List.mem_cons_of_mem _ hb))

theorem map {rank : β → W} {part all : List α} (h : Suffices weight count part all)
    (f : α → β) (hmono : ∀ a ∈ all, ∀ b ∈ all, Ranked.le (weight a) (weight b) = true →
      Ranked.le (rank (f a)) (rank (f b)) = true) :
    Suffices rank count (part.map f) (all.map f) := by
  obtain ⟨dropped, hperm, hcount⟩ := h
  refine ⟨dropped.map f, ?_, ?_⟩
  · rw [← List.map_append]
    exact hperm.map f
  · intro b hb
    obtain ⟨d, hd, rfl⟩ := List.mem_map.mp hb
    refine Nat.le_trans (hcount d hd) ?_
    unfold countFrom
    rw [List.countP_map]
    apply List.countP_mono_left
    intro a ha hda
    refine hmono d ?_ a ?_ hda
    · exact hperm.mem_iff.mpr (List.mem_append_right part hd)
    · exact hperm.mem_iff.mpr (List.mem_append_left dropped ha)

theorem mem {part all : List α} {a : α} (h : Suffices weight count part all)
    (ha : a ∈ part) : a ∈ all := by
  obtain ⟨dropped, hperm, _⟩ := h
  exact hperm.mem_iff.mpr (List.mem_append_left dropped ha)

theorem mono {rank : α → W} {part all : List α} (h : Suffices weight count part all)
    (hmono : ∀ a ∈ all, ∀ b ∈ all, Ranked.le (weight a) (weight b) = true →
      Ranked.le (rank a) (rank b) = true) : Suffices rank count part all := by
  have hmap := h.map id hmono
  rwa [List.map_id, List.map_id] at hmap

/-- Entries may be left out before they are expanded, if enough of those that stay
expand to something that ranks as high. -/
theorem flatMap_left {rank : β → W} {part all dropped : List α} {f : α → List β}
    (hperm : all.Perm (part ++ dropped))
    (h : ∀ d ∈ dropped, ∀ b ∈ f d, ∃ p : α → Bool, count ≤ part.countP p ∧
      ∀ a ∈ part, p a = true → ∃ b' ∈ f a, Ranked.le (rank b) (rank b') = true) :
    Suffices rank count (part.flatMap f) (all.flatMap f) := by
  refine ⟨dropped.flatMap f, ?_, ?_⟩
  · rw [← List.flatMap_append]
    exact hperm.flatMap_right f
  · intro b hb
    obtain ⟨d, hd, hb⟩ := List.mem_flatMap.mp hb
    obtain ⟨p, hp, hpart⟩ := h d hd b hb
    exact Nat.le_trans hp (le_countFrom_flatMap hpart)

variable [TotallyRanked W]

theorem trans {part middle all : List α} (h : Suffices weight count part middle)
    (h' : Suffices weight count middle all) : Suffices weight count part all := by
  obtain ⟨dropped, hperm, hcount⟩ := h
  obtain ⟨dropped', hperm', hcount'⟩ := h'
  refine ⟨dropped ++ dropped', ?_, ?_⟩
  · rw [← List.append_assoc]
    exact hperm'.trans (hperm.append_right dropped')
  · intro d hd
    rcases List.mem_append.mp hd with hd | hd
    · exact hcount d hd
    · have hmiddle := hcount' d hd
      rw [countFrom_perm hperm, countFrom_append] at hmiddle
      by_cases hpos : 0 < countFrom weight (weight d) dropped
      · -- An entry left out first ranks as high, and so do those that outrank it.
        obtain ⟨b, hb, hdb⟩ := countFrom_pos_iff.mp hpos
        refine Nat.le_trans (hcount b hb) ?_
        apply List.countP_mono_left
        intro a _ hba
        exact TotallyRanked.le_trans hdb hba
      · omega

/-- Entries weighed by the heaviest thing they expand to may be selected before
they are expanded. -/
theorem flatMap_of_heaviest {rank : β → W} {all kept : List α} {f : α → List β}
    (h : Heaviest weight count all kept)
    (hle : ∀ a ∈ all, ∀ b ∈ f a, Ranked.le (rank b) (weight a) = true)
    (hattained : ∀ a ∈ all, ∃ b ∈ f a, Ranked.le (weight a) (rank b) = true) :
    Suffices rank count (kept.flatMap f) (all.flatMap f) := by
  obtain ⟨dropped, hperm, hlength, hdropped⟩ := h
  apply flatMap_left hperm
  intro d hd b hb
  have hdall : d ∈ all := hperm.mem_iff.mpr (List.mem_append_right _ hd)
  refine ⟨fun _ => true, ?_, ?_⟩
  · rw [List.countP_true]
    exact Nat.le_of_eq (Heaviest.length_eq_of_dropped hperm hlength hd).symm
  · intro a ha _
    have haall : a ∈ all := hperm.mem_iff.mpr (List.mem_append_left _ ha)
    obtain ⟨b', hb', hab'⟩ := hattained a haall
    refine ⟨b', hb', ?_⟩
    have hbd := hle d hdall b hb
    have hda := hdropped a ha d hd
    exact TotallyRanked.le_trans (TotallyRanked.le_trans hbd hda) hab'

end Suffices

end WeightedParsing
