import Mathlib.Algebra.BigOperators.Group.List.Basic
import WeightedParsing.Counts.Expected
import WeightedParsing.Proofs.Weight.Exact
import WeightedParsing.Proofs.Weight.Tables

/-!
# Merging counts

Counts are merged entry by entry into a table that keeps its order.  In exact
arithmetic merging is associative, the order of the entries included.  Up to that
order it is commutative too: what a rule counts is added up, and a rule has an entry
if one of the merged tables has one.
-/

namespace WeightedParsing

variable {K : Type}

@[reducible] def ExactScalar.addCommMonoid [Scalar K] [BEq K] [ExactScalar K] :
    AddCommMonoid K where
  add_assoc := ExactScalar.add_assoc
  add_comm := ExactScalar.add_comm
  zero_add := ExactScalar.zero_add
  add_zero a := (ExactScalar.add_comm a 0).trans (ExactScalar.zero_add a)
  nsmul := nsmulRec

attribute [local instance] ExactScalar.addCommMonoid

/-- Two updates of a table commute if they commute on the entry of one key, and if
the entry of the later one is there already. -/
theorem OrderedTable.updateEntries_comm {κ α : Type} [DecidableEq κ] {key k : κ}
    {f g : Option α → α} (hcomm : ∀ a, g (some (f (some a))) = f (some (g (some a))))
    {entries : List (κ × α)} (hkey : key ∈ entries.map Prod.fst) :
    updateEntries k g (updateEntries key f entries) =
      updateEntries key f (updateEntries k g entries) := by
  induction entries with
  | nil => simp at hkey
  | cons entry rest ih =>
      rw [List.map_cons, List.mem_cons] at hkey
      by_cases hfirst : entry.1 = key
      · by_cases hk : entry.1 = k
        · simp [updateEntries, ← hfirst, ← hk, hcomm]
        · simp [updateEntries, ← hfirst, hk]
      · have hrest := ih (hkey.resolve_left fun h => hfirst h.symm)
        by_cases hk : entry.1 = k
        · simp [updateEntries, ← hk, hfirst]
        · simp [updateEntries, hk, hfirst, hrest]

theorem OrderedTable.updateEntries_of_not_mem {κ α : Type} [DecidableEq κ] {key : κ}
    {entries : List (κ × α)} (hkey : key ∉ entries.map Prod.fst) (f : Option α → α) :
    updateEntries key f entries = entries ++ [(key, f none)] := by
  induction entries with
  | nil => rfl
  | cons entry rest ih =>
      rw [List.map_cons, List.mem_cons, not_or] at hkey
      rw [updateEntries, if_neg (Ne.symm hkey.1), ih hkey.2, List.cons_append]

namespace ExpectedCounts

theorem ext_entries {a b : ExpectedCounts K} (h : a.entries = b.entries) : a = b := by
  obtain ⟨⟨entriesA, _⟩⟩ := a
  obtain ⟨⟨entriesB, _⟩⟩ := b
  change entriesA = entriesB at h
  subst h
  rfl

variable [Scalar K]

@[simp] theorem merge_empty (counts : ExpectedCounts K) :
    counts.merge .empty = counts := rfl

theorem addAll_cons (counts : ExpectedCounts K) (entry : Rule × K)
    (rest : List (Rule × K)) :
    counts.addAll (entry :: rest) = (counts.add entry.1 entry.2).addAll rest := rfl

theorem mem_keys_add {counts : ExpectedCounts K} {rule r : Rule} {amount : K} :
    r ∈ (counts.add rule amount).table.keys ↔ r = rule ∨ r ∈ counts.table.keys :=
  OrderedTable.mem_keys_update _ _ _ _

theorem get?_add (counts : ExpectedCounts K) (rule r : Rule) (amount : K) :
    (counts.add rule amount).table.get? r =
      if rule = r then some (counts.get r + amount) else counts.table.get? r := by
  by_cases hr : rule = r
  · subst hr
    rw [if_pos rfl]
    exact OrderedTable.get?_update_self _ _ _
  · rw [if_neg hr]
    exact OrderedTable.get?_update_of_ne _ (Ne.symm hr) _

variable [BEq K] [ExactScalar K]

theorem add_add (counts : ExpectedCounts K) (rule : Rule) (a b : K) :
    (counts.add rule a).add rule b = counts.add rule (a + b) := by
  apply ext_entries
  change OrderedTable.updateEntries rule _ (OrderedTable.updateEntries rule _ _) =
    OrderedTable.updateEntries rule _ _
  generalize counts.table.entries = entries
  induction entries with
  | nil => simp [OrderedTable.updateEntries]
  | cons entry rest ih =>
      by_cases hrule : entry.1 = rule
      · simp [OrderedTable.updateEntries, hrule, add_assoc]
      · simp [OrderedTable.updateEntries, hrule, ih]

theorem add_comm_of_mem {counts : ExpectedCounts K} {rule : Rule}
    (hrule : rule ∈ counts.table.keys) (r : Rule) (a b : K) :
    (counts.add rule a).add r b = (counts.add r b).add rule a := by
  apply ext_entries
  apply OrderedTable.updateEntries_comm _ hrule
  intro c
  simp [add_right_comm]

theorem addAll_add_of_mem {counts : ExpectedCounts K} {rule : Rule}
    (hrule : rule ∈ counts.table.keys) (amount : K) (entries : List (Rule × K)) :
    (counts.add rule amount).addAll entries =
      (counts.addAll entries).add rule amount := by
  induction entries generalizing counts with
  | nil => rfl
  | cons entry rest ih =>
      rw [addAll_cons, addAll_cons, add_comm_of_mem hrule,
        ih (mem_keys_add.mpr (.inr hrule))]

/-- Adding to a table before it is merged is adding after it is merged. -/
theorem addAll_updateEntries (counts : ExpectedCounts K) (rule : Rule) (amount : K)
    (entries : List (Rule × K)) :
    counts.addAll
        (OrderedTable.updateEntries rule (fun old => old.getD 0 + amount) entries) =
      (counts.addAll entries).add rule amount := by
  induction entries generalizing counts with
  | nil => simp [OrderedTable.updateEntries, addAll]
  | cons entry rest ih =>
      by_cases hrule : entry.1 = rule
      · subst hrule
        simp only [OrderedTable.updateEntries, if_true, addAll_cons,
          Option.getD_some]
        rw [← add_add, addAll_add_of_mem (mem_keys_add.mpr (.inl rfl))]
      · simp only [OrderedTable.updateEntries, if_neg hrule, addAll_cons]
        exact ih _

theorem merge_addAll (counts other : ExpectedCounts K) (entries : List (Rule × K)) :
    counts.merge (other.addAll entries) = (counts.merge other).addAll entries := by
  induction entries generalizing other with
  | nil => rfl
  | cons entry rest ih =>
      rw [addAll_cons, ih, addAll_cons]
      congr 1
      exact addAll_updateEntries counts entry.1 entry.2 other.entries

theorem merge_assoc (a b c : ExpectedCounts K) :
    (a.merge b).merge c = a.merge (b.merge c) :=
  (merge_addAll a b c.entries).symm

theorem get?_addAll {entries : List (Rule × K)}
    (hnodup : (entries.map Prod.fst).Nodup) (counts : ExpectedCounts K) (rule : Rule) :
    (counts.addAll entries).table.get? rule =
      Option.merge (· + ·) (counts.table.get? rule)
        ((entries.find? fun entry => entry.1 = rule).map Prod.snd) := by
  induction entries generalizing counts with
  | nil => simp [addAll]
  | cons entry rest ih =>
      rw [List.map_cons, List.nodup_cons] at hnodup
      rw [addAll_cons, ih hnodup.2, get?_add]
      by_cases hentry : entry.1 = rule
      · have hrest : (rest.find? fun e => e.1 = rule) = none := by
          rw [List.find?_eq_none]
          intro e he heq
          apply hnodup.1
          rw [hentry, ← of_decide_eq_true heq]
          exact List.mem_map_of_mem he
        rw [hrest, List.find?_cons_of_pos (by simpa using hentry), if_pos hentry]
        cases hold : counts.table.get? rule <;> simp [get, hold]
      · rw [List.find?_cons_of_neg (by simpa using hentry), if_neg hentry]

theorem entries_addAll {entries : List (Rule × K)} {counts : ExpectedCounts K}
    (hnodup : ((counts.entries ++ entries).map Prod.fst).Nodup) :
    (counts.addAll entries).entries = counts.entries ++ entries := by
  induction entries generalizing counts with
  | nil => exact (List.append_nil _).symm
  | cons entry rest ih =>
      have hnew : entry.1 ∉ counts.entries.map Prod.fst := by
        rw [List.map_append, List.nodup_append] at hnodup
        intro hmem
        exact hnodup.2.2 _ hmem entry.1 (by simp) rfl
      have hadd : (counts.add entry.1 entry.2).entries = counts.entries ++ [entry] := by
        refine (OrderedTable.updateEntries_of_not_mem hnew _).trans ?_
        rw [Option.getD_none, zero_add]
      rw [addAll_cons, ih, hadd, List.append_assoc, List.singleton_append]
      rwa [hadd, List.append_assoc, List.singleton_append]

theorem entries_addAll_empty {entries : List (Rule × K)}
    (hnodup : (entries.map Prod.fst).Nodup) :
    (ExpectedCounts.empty.addAll entries).entries = entries :=
  entries_addAll hnodup

theorem get?_merge (counts other : ExpectedCounts K) (rule : Rule) :
    (counts.merge other).table.get? rule =
      Option.merge (· + ·) (counts.table.get? rule) (other.table.get? rule) :=
  get?_addAll other.table.nodup_keys counts rule

theorem get_merge (counts other : ExpectedCounts K) (rule : Rule) :
    (counts.merge other).get rule = counts.get rule + other.get rule := by
  unfold get
  rw [get?_merge]
  cases counts.table.get? rule <;> cases other.table.get? rule <;> simp

end ExpectedCounts

end WeightedParsing
