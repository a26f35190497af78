import Mathlib.Algebra.BigOperators.Group.Finset.Basic
import WeightedParsing.Proofs.Weight.Laws
import WeightedParsing.SymbolWeights

/-!
# Tables of summed weights

Cells and rule counts are tables to which weights are added one at a time.  An
addition of zero leaves such a table alone, so that a missing entry and an entry
of zero have to be read alike.  Read that way, a table holds under every key the
sum of what was added there.
-/

namespace WeightedParsing

variable {K S κ : Type} [WeightAlgebra K S] [DecidableEq κ]

namespace OrderedTable

theorem get?_eq_none_iff {α : Type} (table : OrderedTable κ α) (key : κ) :
    table.get? key = none ↔ key ∉ table.keys := by
  simp only [get?, keys, Option.map_eq_none_iff, List.find?_eq_none, List.mem_map,
    decide_eq_true_eq]
  constructor
  · rintro h ⟨entry, hentry, rfl⟩
    exact h entry hentry rfl
  · rintro h entry hentry rfl
    exact h ⟨entry, hentry, rfl⟩

theorem mem_keys_update {α : Type} (table : OrderedTable κ α) (key k : κ)
    (f : Option α → α) :
    k ∈ (table.update key f).keys ↔ k = key ∨ k ∈ table.keys := by
  by_cases hk : k = key
  · subst hk
    have hsome : (table.update k f).get? k ≠ none := by simp
    rw [Ne, get?_eq_none_iff, not_not] at hsome
    simp [hsome]
  · have hget := get?_update_of_ne table hk f
    have hiff := (get?_eq_none_iff (table.update key f) k).symm.trans
      ((by rw [hget]) : _ ↔ table.get? k = none)
    rw [get?_eq_none_iff] at hiff
    simpa [hk] using not_iff_not.mp hiff

theorem get?_of_mem {α : Type} {table : OrderedTable κ α} {entry : κ × α}
    (h : entry ∈ table.entries) : table.get? entry.1 = some entry.2 := by
  obtain ⟨before, after, hsplit⟩ := List.append_of_mem h
  have hnodup := table.nodup_keys
  rw [hsplit, List.map_append, List.map_cons, List.nodup_append] at hnodup
  have hbefore : (before.find? fun e => e.1 = entry.1) = none := by
    rw [List.find?_eq_none]
    intro e he heq
    exact hnodup.2.2 e.1 (List.mem_map_of_mem he) entry.1 (by simp)
      (by simpa using heq)
  simp [get?, hsplit, List.find?_append, hbefore]

theorem mem_of_get? {α : Type} {table : OrderedTable κ α} {key : κ} {a : α}
    (h : table.get? key = some a) : (key, a) ∈ table.entries := by
  obtain ⟨entry, hfind, rfl⟩ := Option.map_eq_some_iff.mp h
  obtain rfl : entry.1 = key := of_decide_eq_true (List.find?_some hfind :)
  exact List.mem_of_find?_eq_some hfind

@[simp] theorem get?_mapValues {α β : Type} (f : α → β) (table : OrderedTable κ α)
    (key : κ) : (table.mapValues f).get? key = (table.get? key).map f := by
  simp only [get?, mapValues, List.find?_map, Function.comp_def, Option.map_map]

theorem mapValues_congr {α β : Type} {f g : α → β} {table : OrderedTable κ α}
    (h : ∀ key a, table.get? key = some a → f a = g a) :
    table.mapValues f = table.mapValues g := by
  unfold mapValues
  congr 1
  apply List.map_congr_left
  intro entry hentry
  rw [h entry.1 entry.2 (get?_of_mem hentry)]

theorem sum_updateEntries {R : Type} [NonUnitalNonAssocSemiring R] (f : κ → R) (key : κ)
    (amount : R) (entries : List (κ × R)) :
    ((updateEntries key (fun old => old.getD 0 + amount) entries).map fun e =>
        f e.1 * e.2).sum =
      (entries.map fun e => f e.1 * e.2).sum + f key * amount := by
  induction entries with
  | nil => simp [updateEntries]
  | cons first rest ih =>
      by_cases hkey : first.1 = key
      · simp [updateEntries, hkey, mul_add, add_right_comm]
      · simp only [updateEntries, hkey, if_false, List.map_cons, List.sum_cons, ih,
          add_assoc]

/-- The weight under a key, which is zero if the table has no entry there. -/
def weightAt (table : OrderedTable κ S) (key : κ) : S :=
  (table.get? key).getD 0

/-- Adds a weight to the entry of a key, unless the weight is zero. -/
def accumulate (table : OrderedTable κ S) (entry : κ × S) : OrderedTable κ S :=
  if WeightAlgebra.isZero entry.2 then table
  else table.update entry.1 fun old => old.getD 0 + entry.2

@[simp] theorem weightAt_empty (key : κ) :
    (empty : OrderedTable κ S).weightAt key = 0 := rfl

theorem mem_keys_of_weightAt_ne_zero {table : OrderedTable κ S} {key : κ}
    (h : table.weightAt key ≠ 0) : key ∈ table.keys := by
  by_contra hkey
  rw [← get?_eq_none_iff] at hkey
  simp [weightAt, hkey] at h

theorem weightAt_of_mem {table : OrderedTable κ S} {entry : κ × S}
    (h : entry ∈ table.entries) : table.weightAt entry.1 = entry.2 := by
  rw [weightAt, get?_of_mem h, Option.getD_some]

attribute [local instance] LawfulWeights.semiring

variable [LawfulWeights K S]

theorem weightAt_accumulate (table : OrderedTable κ S) (entry : κ × S) (key : κ) :
    (table.accumulate entry).weightAt key =
      table.weightAt key + if entry.1 = key then entry.2 else 0 := by
  unfold accumulate
  by_cases hzero : WeightAlgebra.isZero entry.2
  · have hweight : entry.2 = 0 := isZero_eq_true_iff.mp hzero
    simp [hweight]
  · by_cases hkey : entry.1 = key
    · subst hkey
      simp [hzero, weightAt]
    · have hother := get?_update_of_ne table (Ne.symm hkey)
        (fun old => old.getD 0 + entry.2)
      simp [hzero, hkey, weightAt, hother]

theorem mem_keys_accumulate {table : OrderedTable κ S} {entry : κ × S} {key : κ} :
    key ∈ (table.accumulate entry).keys ↔
      key ∈ table.keys ∨ (key = entry.1 ∧ entry.2 ≠ 0) := by
  unfold accumulate
  by_cases hzero : WeightAlgebra.isZero entry.2
  · have hweight : entry.2 = 0 := isZero_eq_true_iff.mp hzero
    simp [hweight]
  · have hweight : entry.2 ≠ 0 := fun h => hzero (isZero_eq_true_iff.mpr h)
    rw [if_neg hzero, mem_keys_update]
    simp [hweight, or_comm]

theorem weightAt_foldl_accumulate (entries : List (κ × S)) (table : OrderedTable κ S)
    (key : κ) :
    (entries.foldl accumulate table).weightAt key =
      table.weightAt key +
        (entries.map fun entry => if entry.1 = key then entry.2 else 0).sum := by
  induction entries generalizing table with
  | nil => simp
  | cons entry rest ih =>
      rw [List.foldl_cons, ih, weightAt_accumulate, List.map_cons, List.sum_cons,
        add_assoc]

theorem mem_keys_foldl_accumulate {entries : List (κ × S)} {table : OrderedTable κ S}
    {key : κ} :
    key ∈ (entries.foldl accumulate table).keys ↔
      key ∈ table.keys ∨ ∃ weight, (key, weight) ∈ entries ∧ weight ≠ 0 := by
  induction entries generalizing table with
  | nil => simp
  | cons entry rest ih =>
      rw [List.foldl_cons, ih, mem_keys_accumulate]
      constructor
      · rintro ((hold | ⟨rfl, hne⟩) | ⟨weight, hmem, hne⟩)
        · exact .inl hold
        · exact .inr ⟨entry.2, by simp, hne⟩
        · exact .inr ⟨weight, List.mem_cons_of_mem _ hmem, hne⟩
      · rintro (hold | ⟨weight, hmem, hne⟩)
        · exact .inl (.inl hold)
        · rcases List.mem_cons.mp hmem with rfl | hmem
          · exact .inl (.inr ⟨rfl, hne⟩)
          · exact .inr ⟨weight, hmem, hne⟩

theorem sum_entries_accumulate (f : κ → S) (table : OrderedTable κ S)
    (entry : κ × S) :
    ((table.accumulate entry).entries.map fun e => f e.1 * e.2).sum =
      (table.entries.map fun e => f e.1 * e.2).sum + f entry.1 * entry.2 := by
  unfold accumulate
  by_cases hzero : WeightAlgebra.isZero entry.2
  · have hweight : entry.2 = 0 := isZero_eq_true_iff.mp hzero
    simp [hweight]
  · rw [if_neg hzero]
    exact sum_updateEntries f entry.1 entry.2 table.entries

theorem sum_entries_foldl_accumulate (f : κ → S) (entries : List (κ × S))
    (table : OrderedTable κ S) :
    ((entries.foldl accumulate table).entries.map fun e => f e.1 * e.2).sum =
      (table.entries.map fun e => f e.1 * e.2).sum +
        (entries.map fun e => f e.1 * e.2).sum := by
  induction entries generalizing table with
  | nil => simp
  | cons entry rest ih =>
      rw [List.foldl_cons, ih, sum_entries_accumulate, List.map_cons, List.sum_cons,
        add_assoc]

theorem sum_entries_eq_sum_keys (f : κ → S) (table : OrderedTable κ S) :
    (table.entries.map fun e => f e.1 * e.2).sum =
      ∑ key ∈ table.keys.toFinset, f key * table.weightAt key := by
  have hnodup : table.keys.Nodup := table.nodup_keys
  rw [List.sum_toFinset _ hnodup, keys, List.map_map]
  congr 1
  apply List.map_congr_left
  intro entry hentry
  rw [Function.comp_apply, weightAt_of_mem hentry]

/-- A linear form of a table depends on its weights alone, and not on which
entries of zero it has. -/
theorem sum_entries_congr (f : κ → S) {table table' : OrderedTable κ S}
    (h : ∀ key, table.weightAt key = table'.weightAt key) :
    (table.entries.map fun e => f e.1 * e.2).sum =
      (table'.entries.map fun e => f e.1 * e.2).sum := by
  have hextend : ∀ t : OrderedTable κ S, t.keys ⊆ table.keys ++ table'.keys →
      ∑ key ∈ t.keys.toFinset, f key * t.weightAt key =
        ∑ key ∈ (table.keys ++ table'.keys).toFinset, f key * t.weightAt key := by
    intro t hkeys
    apply Finset.sum_subset
    · intro key hkey
      rw [List.mem_toFinset] at hkey ⊢
      exact hkeys hkey
    · intro key _ hkey
      rw [List.mem_toFinset] at hkey
      by_contra hne
      exact hkey (mem_keys_of_weightAt_ne_zero (right_ne_zero_of_mul hne))
  rw [sum_entries_eq_sum_keys, sum_entries_eq_sum_keys,
    hextend table (List.subset_append_left _ _),
    hextend table' (List.subset_append_right _ _)]
  simp only [h]

/-- A table that holds the sums of some entries has their linear forms. -/
theorem sum_entries_eq_of_weightAt (f : κ → S) {table : OrderedTable κ S}
    {entries : List (κ × S)}
    (h : ∀ key, table.weightAt key =
      (entries.map fun entry => if entry.1 = key then entry.2 else 0).sum) :
    (table.entries.map fun e => f e.1 * e.2).sum =
      (entries.map fun e => f e.1 * e.2).sum := by
  have hsame : ∀ key, table.weightAt key = (entries.foldl accumulate empty).weightAt key := by
    intro key
    rw [weightAt_foldl_accumulate, weightAt_empty, zero_add, h]
  rw [sum_entries_congr f hsame, sum_entries_foldl_accumulate]
  simp [empty]

end OrderedTable

/-! ## Weights over symbols -/

namespace SymbolWeights

attribute [local instance] LawfulWeights.semiring

theorem table_combineAll (weights : SymbolWeights S) (entries : List (Symbol × S)) :
    (weights.combineAll entries).table =
      entries.foldl OrderedTable.accumulate weights.table := by
  induction entries generalizing weights with
  | nil => rfl
  | cons entry rest ih =>
      have hstep : (weights.combine entry.1 entry.2).table =
          weights.table.accumulate entry := by
        unfold combine OrderedTable.accumulate
        split <;> rfl
      rw [List.foldl_cons, ← hstep, ← ih]
      rfl

theorem get_eq_zero_of_not_mem {weights : SymbolWeights S} {symbol : Symbol}
    (h : symbol ∉ weights.symbols) : weights.get symbol = 0 := by
  by_contra hne
  exact h (OrderedTable.mem_keys_of_weightAt_ne_zero hne)

theorem get_of_mem_entries {weights : SymbolWeights S} {entry : Symbol × S}
    (h : entry ∈ weights.entries) : weights.get entry.1 = entry.2 :=
  OrderedTable.weightAt_of_mem h

variable [LawfulWeights K S]

theorem get_ofList (entries : List (Symbol × S)) (symbol : Symbol) :
    (ofList entries).get symbol =
      (entries.map fun entry => if entry.1 = symbol then entry.2 else 0).sum := by
  change (empty.combineAll entries).table.weightAt symbol = _
  rw [table_combineAll, OrderedTable.weightAt_foldl_accumulate]
  change (OrderedTable.empty : OrderedTable Symbol S).weightAt symbol + _ = _
  rw [OrderedTable.weightAt_empty, zero_add]

theorem mem_symbols_ofList {entries : List (Symbol × S)} {symbol : Symbol} :
    symbol ∈ (ofList entries).symbols ↔
      ∃ weight, (symbol, weight) ∈ entries ∧ weight ≠ 0 := by
  change symbol ∈ (empty.combineAll entries).table.keys ↔ _
  rw [table_combineAll, OrderedTable.mem_keys_foldl_accumulate]
  simp [empty, OrderedTable.empty, OrderedTable.keys]

theorem sum_entries_ofList (f : Symbol → S) (entries : List (Symbol × S)) :
    ((ofList entries).entries.map fun e => f e.1 * e.2).sum =
      (entries.map fun e => f e.1 * e.2).sum := by
  change ((empty.combineAll entries).table.entries.map fun e => f e.1 * e.2).sum = _
  rw [table_combineAll, OrderedTable.sum_entries_foldl_accumulate]
  simp [empty, OrderedTable.empty]

theorem get_ofList_map {symbols : List Symbol} (hnodup : symbols.Nodup)
    (f : Symbol → S) (symbol : Symbol) :
    (ofList (symbols.map fun x => (x, f x))).get symbol =
      if symbol ∈ symbols then f symbol else 0 := by
  rw [get_ofList, List.map_map]
  induction symbols with
  | nil => simp
  | cons x rest ih =>
      rw [List.nodup_cons] at hnodup
      rw [List.map_cons, List.sum_cons, ih hnodup.2]
      by_cases hx : x = symbol
      · subst hx
        simp [hnodup.1]
      · simp [hx, Ne.symm hx]

theorem total_eq_sum (weights : SymbolWeights S) :
    weights.total = (weights.entries.map fun e => e.2).sum := by
  rw [total, foldl_add_eq_sum, zero_add]

end SymbolWeights

end WeightedParsing
