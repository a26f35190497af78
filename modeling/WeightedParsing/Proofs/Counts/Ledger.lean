import Mathlib.Analysis.SpecialFunctions.Log.Basic
import Mathlib.Algebra.BigOperators.Field
import Std.Data.HashMap.Lemmas
import WeightedParsing.Counts.Conditional
import WeightedParsing.Proofs.Weight.Summing

/-!
# What a conditional table counts

The counts of rules and of their parents are kept apart, and every operation updates both.
A ledger of the uses that a table has counted ties them together: either count is what the
entries under a rule or a parent amount to.  The probabilities of the rules of one parent
then add up to no more than one, whatever operations led to the table.
-/

namespace WeightedParsing

/-- What the entries of some uses amount to that are kept. -/
def amountOf {α : Type} (keep : α → Prop) [DecidablePred keep] (uses : List (α × ℝ)) : ℝ :=
  (uses.map fun use => if keep use.1 then use.2 else 0).sum

section Amounts

variable {α : Type} (keep : α → Prop) [DecidablePred keep]

@[simp] theorem amountOf_nil : amountOf keep [] = 0 := rfl

@[simp] theorem amountOf_cons (use : α × ℝ) (uses : List (α × ℝ)) :
    amountOf keep (use :: uses) = (if keep use.1 then use.2 else 0) + amountOf keep uses := by
  rw [amountOf, List.map_cons, List.sum_cons, amountOf]

@[simp] theorem amountOf_append (uses uses' : List (α × ℝ)) :
    amountOf keep (uses ++ uses') = amountOf keep uses + amountOf keep uses' := by
  rw [amountOf, List.map_append, List.sum_append, amountOf, amountOf]

theorem amountOf_perm {uses uses' : List (α × ℝ)} (hperm : uses.Perm uses') :
    amountOf keep uses = amountOf keep uses' :=
  (hperm.map _).sum_eq

theorem amountOf_nonneg {uses : List (α × ℝ)} (h : ∀ use ∈ uses, 0 ≤ use.2) :
    0 ≤ amountOf keep uses := by
  apply sum_map_nonneg
  intro use huse
  split
  · exact h use huse
  · exact le_rfl

theorem amountOf_scaled (factor : ℝ) (uses : List (α × ℝ)) :
    amountOf keep (uses.map fun use => (use.1, factor * use.2)) =
      factor * amountOf keep uses := by
  rw [amountOf, amountOf, List.map_map, ← List.sum_map_mul_left]
  simp only [Function.comp_def, mul_ite, mul_zero]

/-- The amounts under distinct keys are those of the entries. -/
theorem amountOf_of_mem [DecidableEq α] {entries : List (α × ℝ)}
    (hnodup : (entries.map Prod.fst).Nodup) {entry : α × ℝ} (hentry : entry ∈ entries) :
    amountOf (· = entry.1) entries = entry.2 := by
  induction entries with
  | nil => simp at hentry
  | cons first rest ih =>
      rw [List.map_cons, List.nodup_cons] at hnodup
      rw [amountOf_cons]
      rcases List.mem_cons.mp hentry with rfl | hrest
      · have hnone : amountOf (· = entry.1) rest = 0 := by
          apply sum_map_eq_zero
          intro e he
          apply if_neg
          intro hkey
          exact hnodup.1 (hkey ▸ List.mem_map_of_mem he)
        rw [if_pos rfl, hnone, add_zero]
      · have hkey : first.1 ≠ entry.1 := by
          intro hkey
          exact hnodup.1 (hkey ▸ List.mem_map_of_mem hrest)
        rw [if_neg hkey, zero_add, ih hnodup.2 hrest]

/-- A linear form of the amounts is summed key by key. -/
theorem sum_uses_eq_sum_keys [DecidableEq α] (f : α → ℝ) {keys : Finset α}
    {uses : List (α × ℝ)} (hkeys : ∀ use ∈ uses, use.1 ∈ keys) :
    (uses.map fun use => f use.1 * use.2).sum = ∑ a ∈ keys, f a * amountOf (· = a) uses := by
  induction uses with
  | nil => simp
  | cons use rest ih =>
      have hrest := ih fun u hu => hkeys u (List.mem_cons_of_mem _ hu)
      have huse : use.1 ∈ keys := hkeys use List.mem_cons_self
      simp only [amountOf_cons, mul_add, mul_ite, mul_zero, Finset.sum_add_distrib]
      rw [Finset.sum_ite_eq, if_pos huse, List.map_cons, List.sum_cons, hrest]

theorem amountOf_eq_sum_keys [DecidableEq α] {keys : Finset α} {uses : List (α × ℝ)}
    (hkeys : ∀ use ∈ uses, use.1 ∈ keys) :
    amountOf keep uses = ∑ a ∈ keys with keep a, amountOf (· = a) uses := by
  have hsum := sum_uses_eq_sum_keys (fun a => if keep a then 1 else 0) hkeys
  simp only [ite_mul, one_mul, zero_mul] at hsum
  rw [Finset.sum_filter]
  exact hsum

end Amounts

namespace ConditionalTable

/-- The count of a rule, which is zero if there is none. -/
noncomputable def ruleCount (table : ConditionalTable ℝ) (rule : Rule) : ℝ :=
  table.ruleCounts[rule]?.getD 0

noncomputable def parentCount (table : ConditionalTable ℝ) (parent : Symbol) : ℝ :=
  table.parentCounts[parent]?.getD 0

/-- A table whose counts are what some uses of rules amount to. -/
structure Tallies (table : ConditionalTable ℝ) (uses : List (Rule × ℝ)) : Prop where
  ruleCount_eq : ∀ rule, table.ruleCount rule = amountOf (· = rule) uses
  parentCount_eq : ∀ x, table.parentCount x = amountOf (·.parent = x) uses

/-- The rules of each group have the parent of the group. -/
def Grouped {ρ : Type} (key : ρ → Symbol) (groups : OrderedTable Symbol (List ρ)) : Prop :=
  ∀ group ∈ groups.entries, ∀ rule ∈ group.2, key rule = group.1

/-- A table that has counted some uses of rules. -/
structure HasCounted (table : ConditionalTable ℝ) (uses : List (Rule × ℝ)) : Prop where
  binary_grouped : Grouped BinaryRule.parent table.binaryByParent
  terminal_grouped : Grouped TerminalRule.parent table.terminalByParent
  nonneg : ∀ use ∈ uses, 0 ≤ use.2
  ruleCount_eq : ∀ rule, table.ruleCount rule = amountOf (· = rule) uses
  parentCount_eq : ∀ x, table.parentCount x = amountOf (·.parent = x) uses

theorem HasCounted.tallies {table : ConditionalTable ℝ} {uses : List (Rule × ℝ)}
    (h : table.HasCounted uses) : table.Tallies uses :=
  ⟨h.ruleCount_eq, h.parentCount_eq⟩

/-! ## The rules of a table -/

section Groups

variable {K : Type} [Scalar K] (table : ConditionalTable K)

/-- The rules of each parent, which no operation changes. -/
def groups : OrderedTable Symbol (List BinaryRule) × OrderedTable Symbol (List TerminalRule) :=
  (table.binaryByParent, table.terminalByParent)

omit [Scalar K] in
theorem groups_foldl {α : Type} {f : ConditionalTable K → α → ConditionalTable K}
    (hf : ∀ table a, (f table a).groups = table.groups) (as : List α) :
    (as.foldl f table).groups = table.groups := by
  induction as generalizing table with
  | nil => rfl
  | cons a rest ih => rw [List.foldl_cons, ih, hf]

theorem groups_smoothGroup (amount : K) (parent : Symbol) (rules : List Rule) :
    (table.smoothGroup amount parent rules).groups = table.groups := by
  refine (groups_foldl _ ?_ rules).trans rfl
  exact fun _ _ => rfl

theorem groups_smooth (amount : K) : (table.smooth amount).groups = table.groups := by
  refine (groups_foldl _ ?_ _).trans (groups_foldl _ ?_ _)
  · exact fun done group => groups_smoothGroup done amount group.1 _
  · exact fun done group => groups_smoothGroup done amount group.1 _

theorem groups_clear : table.clear.groups = table.groups := rfl

theorem groups_increment (counts : ExpectedCounts K) (factor : K) :
    (table.increment counts factor).groups = table.groups := by
  refine groups_foldl table ?_ _
  exact fun _ _ => rfl

/-- Every rule of a table, first the binary ones, by parent. -/
def groupedRules : List Rule :=
  (table.binaryByParent.entries.flatMap fun group => group.2.map Rule.binary) ++
    table.terminalByParent.entries.flatMap fun group => group.2.map Rule.terminal

end Groups

/-! ## Counting -/

section Counting

variable (table : ConditionalTable ℝ)

theorem ruleCount_countRule (rule r : Rule) (amount : ℝ) :
    (table.countRule rule amount).ruleCount r =
      table.ruleCount r + if rule = r then amount else 0 := by
  unfold ruleCount countRule
  rw [Std.HashMap.getElem?_alter]
  by_cases hr : rule = r
  · subst hr
    simp
  · simp [hr]

theorem parentCount_countParent (parent x : Symbol) (amount : ℝ) :
    (table.countParent parent amount).parentCount x =
      table.parentCount x + if parent = x then amount else 0 := by
  unfold parentCount countParent
  rw [Std.HashMap.getElem?_alter]
  by_cases hx : parent = x
  · subst hx
    simp
  · simp [hx]

theorem ruleCount_foldl_countRule (rules : List Rule) (r : Rule) (amount : ℝ) :
    (rules.foldl (fun table rule => table.countRule rule amount) table).ruleCount r =
      table.ruleCount r + amountOf (· = r) (rules.map fun rule => (rule, amount)) := by
  induction rules generalizing table with
  | nil => exact (add_zero _).symm
  | cons rule rest ih =>
      rw [List.foldl_cons, ih, ruleCount_countRule, List.map_cons, amountOf_cons, add_assoc]

theorem foldl_countRule_eq (rules : List Rule) (amount : ℝ) :
    rules.foldl (fun table rule => table.countRule rule amount) table =
      { table with
        ruleCounts := (rules.foldl (fun table rule => table.countRule rule amount)
          table).ruleCounts } := by
  induction rules generalizing table with
  | nil => rfl
  | cons rule rest ih =>
      rw [List.foldl_cons, ih]
      rfl

end Counting

/-! ## Operations -/

namespace Tallies

variable {table : ConditionalTable ℝ} {uses : List (Rule × ℝ)}

theorem countUse (h : table.Tallies uses) (rule : Rule) (amount : ℝ) :
    (table.countUse rule amount).Tallies (uses ++ [(rule, amount)]) where
  ruleCount_eq r := by
    rw [ConditionalTable.countUse, ruleCount_countRule, amountOf_append, ← h.ruleCount_eq]
    simp only [amountOf_cons, amountOf_nil, add_zero]
    rfl
  parentCount_eq x := by
    change (table.countParent rule.parent amount).parentCount x = _
    rw [parentCount_countParent, amountOf_append, ← h.parentCount_eq]
    simp only [amountOf_cons, amountOf_nil, add_zero]

theorem foldl_countUse (h : table.Tallies uses) (factor : ℝ) (entries : List (Rule × ℝ)) :
    (entries.foldl (fun table entry => table.countUse entry.1 (factor * entry.2))
        table).Tallies (uses ++ entries.map fun e => (e.1, factor * e.2)) := by
  induction entries generalizing table uses with
  | nil => simpa using h
  | cons entry rest ih => simpa using ih (h.countUse entry.1 (factor * entry.2))

theorem perm {uses' : List (Rule × ℝ)} (h : table.Tallies uses) (hperm : uses.Perm uses') :
    table.Tallies uses' where
  ruleCount_eq rule := (h.ruleCount_eq rule).trans (amountOf_perm _ hperm)
  parentCount_eq x := (h.parentCount_eq x).trans (amountOf_perm _ hperm)

theorem increment (h : table.Tallies uses) (counts : ExpectedCounts ℝ) (factor : ℝ) :
    (table.increment counts factor).Tallies
      (uses ++ counts.entries.map fun e => (e.1, factor * e.2)) := by
  have hperm : (binaryEntries counts.entries ++ terminalEntries counts.entries).Perm
      counts.entries :=
    List.perm_append_comm.trans (List.filter_append_perm _ _)
  exact (h.foldl_countUse factor _).perm ((hperm.map _).append_left uses)

theorem clear (table : ConditionalTable ℝ) : table.clear.Tallies [] where
  ruleCount_eq r := by
    unfold ruleCount ConditionalTable.clear
    rw [Std.HashMap.getElem?_map]
    cases table.ruleCounts[r]? <;> rfl
  parentCount_eq x := by
    unfold parentCount ConditionalTable.clear
    rw [Std.HashMap.getElem?_map]
    cases table.parentCounts[x]? <;> rfl

theorem smoothGroup (h : table.Tallies uses) (amount : ℝ) {parent : Symbol}
    {rules : List Rule} (hrules : ∀ rule ∈ rules, rule.parent = parent) :
    (table.smoothGroup amount parent rules).Tallies
      (uses ++ rules.map fun rule => (rule, amount)) := by
  have hparent : ∀ x, amountOf (·.parent = x) (rules.map fun rule => (rule, amount)) =
      if parent = x then amount * rules.length else 0 := by
    intro x
    rw [amountOf, List.map_map, List.map_congr_left (g := fun _ => if parent = x then amount
      else 0) fun rule hrule => by rw [Function.comp_apply, hrules rule hrule],
      List.map_const', List.sum_replicate, nsmul_eq_mul, mul_ite, mul_zero, mul_comm]
  unfold ConditionalTable.smoothGroup
  rw [foldl_countRule_eq]
  constructor
  · intro r
    refine (ruleCount_foldl_countRule _ rules r amount).trans ?_
    rw [amountOf_append, ← h.ruleCount_eq]
    rfl
  · intro x
    change (table.countParent parent (amount * (rules.length : ℝ))).parentCount x = _
    rw [parentCount_countParent, amountOf_append, ← h.parentCount_eq, hparent]

/-- Smoothing one group after the other. -/
theorem foldl_smoothGroup {ρ : Type} (h : table.Tallies uses) (amount : ℝ) (make : ρ → Rule)
    {groups : List (Symbol × List ρ)}
    (hgroups : ∀ group ∈ groups, ∀ rule ∈ group.2, (make rule).parent = group.1) :
    (groups.foldl (fun done group =>
      ConditionalTable.smoothGroup amount done group.1 (group.2.map make)) table).Tallies
        (uses ++ (groups.flatMap fun group => group.2.map make).map fun rule =>
          (rule, amount)) := by
  induction groups generalizing table uses with
  | nil => simpa using h
  | cons group rest ih =>
      rw [List.forall_mem_cons] at hgroups
      have hfirst : ∀ rule ∈ group.2.map make, rule.parent = group.1 := by
        intro rule hrule
        obtain ⟨r, hr, rfl⟩ := List.mem_map.mp hrule
        exact hgroups.1 r hr
      rw [List.foldl_cons, List.flatMap_cons, List.map_append, ← List.append_assoc]
      exact ih (h.smoothGroup amount hfirst) hgroups.2

theorem smooth (h : table.Tallies uses) (amount : ℝ)
    (hbinary : Grouped BinaryRule.parent table.binaryByParent)
    (hterminal : Grouped TerminalRule.parent table.terminalByParent) :
    (table.smooth amount).Tallies
      (uses ++ table.groupedRules.map fun rule => (rule, amount)) := by
  rw [groupedRules, List.map_append, ← List.append_assoc]
  exact (h.foldl_smoothGroup amount Rule.binary hbinary).foldl_smoothGroup amount
    Rule.terminal hterminal

theorem parentCount_eq_sum (h : table.Tallies uses) {rules : Finset Rule}
    (hrules : ∀ use ∈ uses, use.1 ∈ rules) (x : Symbol) :
    table.parentCount x = ∑ rule ∈ rules with rule.parent = x, table.ruleCount rule := by
  rw [h.parentCount_eq, amountOf_eq_sum_keys _ hrules]
  exact Finset.sum_congr rfl fun rule _ => (h.ruleCount_eq rule).symm

end Tallies

namespace HasCounted

variable {table : ConditionalTable ℝ} {uses : List (Rule × ℝ)}

/-- What has counted some uses has counted others once it tallies them, if its rules are
still the same. -/
theorem of_tallies {table' : ConditionalTable ℝ} {uses' : List (Rule × ℝ)}
    (h : table.HasCounted uses) (hgroups : table'.groups = table.groups)
    (htallies : table'.Tallies uses') (hnonneg : ∀ use ∈ uses', 0 ≤ use.2) :
    table'.HasCounted uses' where
  binary_grouped := (Prod.mk.inj hgroups).1 ▸ h.binary_grouped
  terminal_grouped := (Prod.mk.inj hgroups).2 ▸ h.terminal_grouped
  nonneg := hnonneg
  ruleCount_eq := htallies.ruleCount_eq
  parentCount_eq := htallies.parentCount_eq

theorem increment (h : table.HasCounted uses) {counts : ExpectedCounts ℝ} {factor : ℝ}
    (hcounts : ∀ e ∈ counts.entries, 0 ≤ factor * e.2) :
    (table.increment counts factor).HasCounted
      (uses ++ counts.entries.map fun e => (e.1, factor * e.2)) := by
  refine h.of_tallies (groups_increment table counts factor)
    (h.tallies.increment counts factor) ?_
  intro use huse
  rcases List.mem_append.mp huse with huse | huse
  · exact h.nonneg use huse
  · obtain ⟨e, he, rfl⟩ := List.mem_map.mp huse
    exact hcounts e he

theorem clear (h : table.HasCounted uses) : table.clear.HasCounted [] :=
  h.of_tallies (groups_clear table) (Tallies.clear table) (List.forall_mem_nil _)

theorem smooth (h : table.HasCounted uses) {amount : ℝ} (hamount : 0 ≤ amount) :
    ∃ uses', (table.smooth amount).HasCounted uses' := by
  refine ⟨_, h.of_tallies (groups_smooth table amount)
    (h.tallies.smooth amount h.binary_grouped h.terminal_grouped) ?_⟩
  intro use huse
  rcases List.mem_append.mp huse with huse | huse
  · exact h.nonneg use huse
  · obtain ⟨rule, _, rfl⟩ := List.mem_map.mp huse
    exact hamount

end HasCounted

theorem Grouped.update {ρ : Type} {key : ρ → Symbol}
    {groups : OrderedTable Symbol (List ρ)} (h : Grouped key groups) (rule : ρ) :
    Grouped key (groups.update (key rule) fun old => old.getD [] ++ [rule]) := by
  intro group hgroup r hr
  have hget := OrderedTable.get?_of_mem hgroup
  by_cases hkey : group.1 = key rule
  · rw [hkey, OrderedTable.get?_update_self, Option.some.injEq] at hget
    rw [← hget, List.mem_append, List.mem_singleton] at hr
    rcases hr with hr | rfl
    · cases hold : groups.get? (key rule) with
      | none => simp [hold] at hr
      | some rules =>
          rw [hold, Option.getD_some] at hr
          exact (h _ (OrderedTable.mem_of_get? hold) r hr).trans hkey.symm
    · exact hkey.symm
  · rw [OrderedTable.get?_update_of_ne _ hkey] at hget
    exact h _ (OrderedTable.mem_of_get? hget) r hr

theorem grouped_groupBy {ρ : Type} (key : ρ → Symbol) (rules : List ρ) :
    Grouped key (groupBy key rules) := by
  have hfold : ∀ groups, Grouped key groups → Grouped key (rules.foldl
      (fun groups rule => groups.update (key rule) fun old => old.getD [] ++ [rule])
      groups) := by
    induction rules with
    | nil => exact fun _ h => h
    | cons rule rest ih => exact fun groups h => ih _ (h.update rule)
  apply hfold
  intro group hgroup
  simp [OrderedTable.empty] at hgroup

/-- A new table has counted each rule of its grammar once. -/
theorem exists_hasCounted_ofGrammar (grammar : Grammar) :
    ∃ uses, (ofGrammar grammar : ConditionalTable ℝ).HasCounted uses := by
  let table : ConditionalTable ℝ :=
    ⟨groupBy BinaryRule.parent grammar.binaryRules,
      groupBy TerminalRule.parent grammar.terminalRules, ∅, ∅⟩
  have hnothing : table.HasCounted [] := by
    constructor
    · exact grouped_groupBy _ _
    · exact grouped_groupBy _ _
    · simp
    · intro rule
      simp [table, ruleCount]
    · intro x
      simp [table, parentCount]
  exact hnothing.smooth zero_le_one

/-! ## Every table -/

/-- What operations on a new table of a grammar lead to, if no amount is less than zero. -/
inductive Reached (grammar : Grammar) : ConditionalTable ℝ → Prop
  | ofGrammar : Reached grammar (ofGrammar grammar)
  | increment {table : ConditionalTable ℝ} (counts : ExpectedCounts ℝ) (factor : ℝ) :
      Reached grammar table → (∀ e ∈ counts.entries, 0 ≤ factor * e.2) →
        Reached grammar (table.increment counts factor)
  | clear {table : ConditionalTable ℝ} :
      Reached grammar table → Reached grammar table.clear
  | smooth {table : ConditionalTable ℝ} (amount : ℝ) :
      Reached grammar table → 0 ≤ amount → Reached grammar (table.smooth amount)

theorem Reached.exists_hasCounted {grammar : Grammar} {table : ConditionalTable ℝ}
    (h : Reached grammar table) : ∃ uses, table.HasCounted uses := by
  induction h with
  | ofGrammar => exact exists_hasCounted_ofGrammar grammar
  | increment counts factor _ hcounts ih =>
      obtain ⟨uses, huses⟩ := ih
      exact ⟨_, huses.increment hcounts⟩
  | clear _ ih =>
      obtain ⟨uses, huses⟩ := ih
      exact ⟨_, huses.clear⟩
  | smooth amount _ hamount ih =>
      obtain ⟨uses, huses⟩ := ih
      exact huses.smooth hamount

/-! ## Probabilities -/

/-- A missing count reads as zero. -/
theorem probability_eq_ite (table : ConditionalTable ℝ) (rule : Rule) :
    table.probability rule =
      if 0 < table.parentCount rule.parent then
        table.ruleCount rule / table.parentCount rule.parent
      else 0 := by
  unfold probability ruleCount parentCount
  cases table.ruleCounts[rule]? with
  | none => simp
  | some count =>
      cases table.parentCounts[rule.parent]? with
      | none => simp
      | some total =>
          rw [Option.getD_some, Option.getD_some]
          exact ite_congr (decide_eq_true_eq) (fun _ => rfl) fun _ => rfl

/-- Weights of rules that may be taken for probabilities given their parents. -/
structure IsConditional (p : Rule → ℝ) : Prop where
  nonneg : ∀ rule, 0 ≤ p rule
  sum_le_one : ∀ (x : Symbol) (rules : Finset Rule), (∀ rule ∈ rules, rule.parent = x) →
    ∑ rule ∈ rules, p rule ≤ 1

namespace HasCounted

variable {table : ConditionalTable ℝ} {uses : List (Rule × ℝ)}

theorem ruleCount_nonneg (h : table.HasCounted uses) (rule : Rule) :
    0 ≤ table.ruleCount rule := by
  rw [h.ruleCount_eq]
  exact amountOf_nonneg _ h.nonneg

theorem parentCount_nonneg (h : table.HasCounted uses) (x : Symbol) :
    0 ≤ table.parentCount x := by
  rw [h.parentCount_eq]
  exact amountOf_nonneg _ h.nonneg

theorem sum_ruleCount_le (h : table.HasCounted uses) {x : Symbol} {rules : Finset Rule}
    (hrules : ∀ rule ∈ rules, rule.parent = x) :
    ∑ rule ∈ rules, table.ruleCount rule ≤ table.parentCount x := by
  have hused : ∀ use ∈ uses, use.1 ∈ (uses.map Prod.fst).toFinset ∪ rules := by
    intro use huse
    exact Finset.mem_union_left _ (List.mem_toFinset.mpr (List.mem_map_of_mem huse))
  rw [h.tallies.parentCount_eq_sum hused]
  apply Finset.sum_le_sum_of_subset_of_nonneg
  · intro rule hrule
    exact Finset.mem_filter.mpr ⟨Finset.mem_union_right _ hrule, hrules rule hrule⟩
  · exact fun rule _ _ => h.ruleCount_nonneg rule

theorem ruleCount_le_parentCount (h : table.HasCounted uses) (rule : Rule) :
    table.ruleCount rule ≤ table.parentCount rule.parent := by
  have hsingle := h.sum_ruleCount_le fun r (hr : r ∈ {rule}) =>
    congrArg Rule.parent (Finset.mem_singleton.mp hr)
  rwa [Finset.sum_singleton] at hsingle

/-- A probability is a ratio of counts, also where the count of the parent is zero. -/
theorem probability_eq (h : table.HasCounted uses) (rule : Rule) :
    table.probability rule = table.ruleCount rule / table.parentCount rule.parent := by
  rw [table.probability_eq_ite]
  split
  · rfl
  · rename_i hpos
    rw [le_antisymm (not_lt.mp hpos) (h.parentCount_nonneg _), div_zero]

theorem probability_ne_zero (h : table.HasCounted uses) {rule : Rule}
    (hrule : table.ruleCount rule ≠ 0) : table.probability rule ≠ 0 := by
  have hpos := lt_of_le_of_ne (h.ruleCount_nonneg rule) (Ne.symm hrule)
  rw [h.probability_eq]
  exact div_ne_zero hrule (hpos.trans_le (h.ruleCount_le_parentCount rule)).ne'

theorem isConditional (h : table.HasCounted uses) : IsConditional table.probability where
  nonneg rule := by
    rw [h.probability_eq]
    exact div_nonneg (h.ruleCount_nonneg rule) (h.parentCount_nonneg _)
  sum_le_one x rules hrules := by
    have hsum : ∑ rule ∈ rules, table.probability rule =
        (∑ rule ∈ rules, table.ruleCount rule) / table.parentCount x := by
      rw [Finset.sum_div]
      apply Finset.sum_congr rfl
      intro rule hrule
      rw [h.probability_eq, hrules rule hrule]
    rw [hsum]
    exact div_le_one_of_le₀ (h.sum_ruleCount_le hrules) (h.parentCount_nonneg x)

end HasCounted

end ConditionalTable

end WeightedParsing
