import WeightedParsing.Proofs.Weight.Monotone
import WeightedParsing.Proofs.Weight.Tables

/-!
# Weights that do not cancel out

Weights of at least zero add up to zero only where all of them are zero, and their sums
and products are such weights again.  A table that adds them up never comes back to zero:
it has an entry under a key exactly where it holds some weight, and no entry of zero.
-/

namespace WeightedParsing

variable {K S : Type} [WeightAlgebra K S]

/-- Sums and products of weights with a property have it too, and such a sum is zero only
with its operands. -/
structure ZeroSumFree (p : S → Prop) : Prop where
  zero : p 0
  add : ∀ {a b : S}, p a → p b → p (a + b)
  mul : ∀ {a b : S}, p a → p b → p (a * b)
  left_eq_zero : ∀ {a b : S}, p a → p b → a + b = 0 → a = 0

theorem ZeroSumFree.zero_le [OrderedWeights K S] :
    ZeroSumFree fun a : S => Ranked.le 0 a = true where
  zero := OrderedWeights.le_refl 0
  add := zero_le_add
  mul := zero_le_mul
  left_eq_zero := eq_zero_of_add_eq_zero

attribute [local instance] LawfulWeights.semiring

namespace ZeroSumFree

variable {p : S → Prop} (hp : ZeroSumFree p)

include hp

section Sums

variable {α : Type} {entries : List α} {f : α → S}

theorem sum (hf : ∀ a ∈ entries, p (f a)) : p (entries.map f).sum := by
  induction entries with
  | nil => exact hp.zero
  | cons a rest ih =>
      rw [List.forall_mem_cons] at hf
      exact hp.add hf.1 (ih hf.2)

variable [LawfulWeights K S]

theorem sum_eq_zero_iff (hf : ∀ a ∈ entries, p (f a)) :
    (entries.map f).sum = 0 ↔ ∀ a ∈ entries, f a = 0 := by
  induction entries with
  | nil => simp
  | cons a rest ih =>
      rw [List.forall_mem_cons] at hf
      rw [List.map_cons, List.sum_cons, List.forall_mem_cons, ← ih hf.2]
      constructor
      · intro hsum
        have ha : f a = 0 := hp.left_eq_zero hf.1 (hp.sum hf.2) hsum
        rw [ha, zero_add] at hsum
        exact ⟨ha, hsum⟩
      · rintro ⟨ha, hrest⟩
        rw [ha, hrest, add_zero]

theorem sum_ne_zero_iff (hf : ∀ a ∈ entries, p (f a)) :
    (entries.map f).sum ≠ 0 ↔ ∃ a ∈ entries, f a ≠ 0 := by
  rw [Ne, hp.sum_eq_zero_iff hf]
  push Not
  rfl

end Sums

end ZeroSumFree

/-! ## Tables without entries of zero -/

namespace OrderedTable

variable {κ : Type} [DecidableEq κ] {p : S → Prop} {table : OrderedTable κ S}

/-- The entries of a table have a property, and none of them is zero. -/
def HoldsNonzero (p : S → Prop) (table : OrderedTable κ S) : Prop :=
  ∀ entry ∈ table.entries, p entry.2 ∧ entry.2 ≠ 0

theorem HoldsNonzero.mem_keys_iff (htable : table.HoldsNonzero p) {key : κ} :
    key ∈ table.keys ↔ table.weightAt key ≠ 0 := by
  constructor
  · intro hkey
    obtain ⟨entry, hentry, rfl⟩ := List.mem_map.mp hkey
    rw [weightAt_of_mem hentry]
    exact (htable entry hentry).2
  · exact mem_keys_of_weightAt_ne_zero

theorem HoldsNonzero.weightAt (htable : table.HoldsNonzero p) (hp : ZeroSumFree p)
    (key : κ) : p (table.weightAt key) := by
  unfold OrderedTable.weightAt
  cases hget : table.get? key with
  | none => exact hp.zero
  | some a => exact (htable _ (mem_of_get? hget)).1

variable [LawfulWeights K S]

/-- A weight that is added to an entry other than zero does not make it zero. -/
theorem HoldsNonzero.accumulate (htable : table.HoldsNonzero p) (hp : ZeroSumFree p)
    {entry : κ × S} (hentry : p entry.2) : (table.accumulate entry).HoldsNonzero p := by
  unfold OrderedTable.accumulate
  by_cases hzero : entry.2 = 0
  · rw [if_pos (isZero_eq_true_iff.mpr hzero)]
    exact htable
  rw [if_neg (by simpa using hzero)]
  intro changed hchanged
  have hget := get?_of_mem hchanged
  by_cases hkey : changed.1 = entry.1
  · rw [hkey, get?_update_self, Option.some.injEq] at hget
    rw [← hget]
    refine ⟨hp.add (htable.weightAt hp entry.1) hentry, fun hsum => hzero ?_⟩
    have hold : table.weightAt entry.1 = 0 :=
      hp.left_eq_zero (htable.weightAt hp entry.1) hentry hsum
    rwa [← OrderedTable.weightAt, hold, zero_add] at hsum
  · rw [get?_update_of_ne _ hkey] at hget
    exact htable changed (mem_of_get? hget)

theorem HoldsNonzero.foldl_accumulate {entries : List (κ × S)}
    (htable : table.HoldsNonzero p) (hp : ZeroSumFree p)
    (hentries : ∀ entry ∈ entries, p entry.2) :
    (entries.foldl OrderedTable.accumulate table).HoldsNonzero p := by
  induction entries generalizing table with
  | nil => exact htable
  | cons entry rest ih =>
      rw [List.forall_mem_cons] at hentries
      exact ih (htable.accumulate hp hentries.1) hentries.2

end OrderedTable

namespace SymbolWeights

variable {p : S → Prop} {weights : SymbolWeights S}

def HoldsNonzero (p : S → Prop) (weights : SymbolWeights S) : Prop :=
  weights.table.HoldsNonzero p

theorem HoldsNonzero.mem_symbols_iff (hweights : weights.HoldsNonzero p) {x : Symbol} :
    x ∈ weights.symbols ↔ weights.get x ≠ 0 :=
  OrderedTable.HoldsNonzero.mem_keys_iff hweights

theorem HoldsNonzero.get (hweights : weights.HoldsNonzero p) (hp : ZeroSumFree p)
    (x : Symbol) : p (weights.get x) :=
  OrderedTable.HoldsNonzero.weightAt hweights hp x

theorem holdsNonzero_ofList [LawfulWeights K S] (hp : ZeroSumFree p)
    {entries : List (Symbol × S)} (hentries : ∀ entry ∈ entries, p entry.2) :
    (ofList entries).HoldsNonzero p := by
  unfold HoldsNonzero ofList
  rw [table_combineAll]
  apply OrderedTable.HoldsNonzero.foldl_accumulate _ hp hentries
  intro entry hentry
  cases hentry

theorem eq_empty_iff : weights = empty ↔ ∀ x, x ∉ weights.symbols := by
  constructor
  · rintro rfl x hx
    cases hx
  · intro hnone
    obtain ⟨⟨entries, hkeys⟩⟩ := weights
    obtain rfl : entries = [] :=
      List.map_eq_nil_iff.mp (List.eq_nil_iff_forall_not_mem.mpr hnone)
    rfl

end SymbolWeights

end WeightedParsing
