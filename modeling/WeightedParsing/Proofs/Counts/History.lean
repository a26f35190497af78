import Mathlib.Algebra.BigOperators.Finprod
import Mathlib.Data.List.DropRight
import WeightedParsing.Proofs.Corpus.Counts
import WeightedParsing.Proofs.Counts.Ledger
import WeightedParsing.Proofs.Grammar.Index

/-!
# What the history of a conditional table leaves behind

A table is cleared, smoothed and incremented in any order.  Of all that the operations since
it was last cleared are left, and of these only what they add up to for each rule: the
probability of a rule is its share in the counts of the rules with its parent.  Histories
that count the same cannot be told apart, by no operations that follow either.
-/

namespace WeightedParsing

namespace ExpectedCounts

theorem amountOf_entries (counts : ExpectedCounts ℝ) (rule : Rule) :
    amountOf (· = rule) counts.entries = counts.get rule := by
  cases hget : counts.table.get? rule with
  | some amount =>
      have hentry := OrderedTable.mem_of_get? hget
      rw [get, hget, Option.getD_some]
      exact amountOf_of_mem counts.table.nodup_keys hentry
  | none =>
      rw [OrderedTable.get?_eq_none_iff] at hget
      rw [get, (OrderedTable.get?_eq_none_iff _ _).mpr hget, Option.getD_none]
      apply sum_map_eq_zero
      intro entry hentry
      apply if_neg
      rintro rfl
      exact hget (List.mem_map_of_mem hentry)

theorem get_scale (counts : ExpectedCounts ℝ) (factor : ℝ) (rule : Rule) :
    (counts.scale factor).get rule = counts.get rule * factor := by
  rw [get, scale, OrderedTable.get?_mapValues, get]
  cases counts.table.get? rule <;> simp

end ExpectedCounts

namespace ConditionalTable

/-! ## The rules of a grammar by parent -/

theorem flatMap_updateEntries_perm {κ ρ : Type} [DecidableEq κ] (key : κ) (rule : ρ)
    (entries : List (κ × List ρ)) :
    ((OrderedTable.updateEntries key (fun old => old.getD [] ++ [rule]) entries).flatMap
        Prod.snd).Perm (entries.flatMap Prod.snd ++ [rule]) := by
  induction entries with
  | nil => exact .refl _
  | cons group rest ih =>
      rw [OrderedTable.updateEntries]
      split
      · rw [List.flatMap_cons, List.flatMap_cons, Option.getD_some, List.append_assoc,
          List.append_assoc]
        exact List.perm_append_comm.append_left group.2
      · rw [List.flatMap_cons, List.flatMap_cons, List.append_assoc]
        exact ih.append_left group.2

/-- Grouping puts every rule into one group. -/
theorem flatMap_groupBy_perm {ρ : Type} (key : ρ → Symbol) (rules : List ρ) :
    ((groupBy key rules).entries.flatMap Prod.snd).Perm rules := by
  have hfold : ∀ groups : OrderedTable Symbol (List ρ),
      ((rules.foldl (fun groups rule =>
          groups.update (key rule) fun old => old.getD [] ++ [rule]) groups).entries.flatMap
        Prod.snd).Perm (groups.entries.flatMap Prod.snd ++ rules) := by
    induction rules with
    | nil =>
        intro groups
        rw [List.append_nil]
        exact .refl _
    | cons rule rest ih =>
        intro groups
        have hrule := flatMap_updateEntries_perm (key rule) rule groups.entries
        refine (ih _).trans ((hrule.append_right rest).trans ?_)
        rw [List.append_assoc]
        exact .refl _
  exact hfold .empty

/-- The table of a grammar before it counts anything. -/
def uncounted (grammar : Grammar) : ConditionalTable ℝ :=
  ⟨groupBy BinaryRule.parent grammar.binaryRules,
    groupBy TerminalRule.parent grammar.terminalRules, ∅, ∅⟩

theorem groupedRules_uncounted_perm (grammar : Grammar) :
    (uncounted grammar).groupedRules.Perm grammar.rules := by
  have hflat : ∀ {ρ : Type} (groups : List (Symbol × List ρ)) (make : ρ → Rule),
      groups.flatMap (fun group => group.2.map make) = (groups.flatMap Prod.snd).map make :=
    fun groups make => (List.map_flatMap ..).symm
  rw [groupedRules, hflat, hflat]
  exact ((flatMap_groupBy_perm _ _).map _).append ((flatMap_groupBy_perm _ _).map _)

theorem tallies_uncounted (grammar : Grammar) : (uncounted grammar).Tallies [] where
  ruleCount_eq rule := by simp [uncounted, ruleCount]
  parentCount_eq x := by simp [uncounted, parentCount]

/-! ## Operations -/

/-- What may be done to a conditional table. -/
inductive Operation where
  | clear
  | smooth (amount : ℝ)
  | increment (counts : ExpectedCounts ℝ) (factor : ℝ)

namespace Operation

def isClear : Operation → Bool
  | clear => true
  | smooth _ => false
  | increment _ _ => false

noncomputable def apply (table : ConditionalTable ℝ) : Operation → ConditionalTable ℝ
  | clear => table.clear
  | smooth amount => table.smooth amount
  | increment counts factor => table.increment counts factor

/-- What an operation adds to the count of a rule. -/
noncomputable def amount (grammar : Grammar) (rule : Rule) : Operation → ℝ
  | clear => 0
  | smooth amount => if rule ∈ grammar.rules then amount else 0
  | increment counts factor => factor * counts.get rule

/-- The uses of rules that an operation counts. -/
noncomputable def uses (grammar : Grammar) : Operation → List (Rule × ℝ)
  | clear => []
  | smooth amount => grammar.rules.map fun rule => (rule, amount)
  | increment counts factor => counts.entries.map fun e => (e.1, factor * e.2)

/-- No amount of the operation is less than zero. -/
def Nonneg : Operation → Prop
  | clear => True
  | smooth amount => 0 ≤ amount
  | increment counts factor => ∀ e ∈ counts.entries, 0 ≤ factor * e.2

theorem groups_apply (table : ConditionalTable ℝ) (op : Operation) :
    (op.apply table).groups = table.groups := by
  cases op with
  | clear => exact groups_clear table
  | smooth amount => exact groups_smooth table amount
  | increment counts factor => exact groups_increment table counts factor

theorem amountOf_uses {grammar : Grammar} (hgrammar : grammar.Indexed) (rule : Rule)
    (op : Operation) : amountOf (· = rule) (op.uses grammar) = op.amount grammar rule := by
  cases op with
  | clear => rfl
  | smooth amount =>
      have hkeys : ((grammar.rules.map fun rule => (rule, amount)).map Prod.fst).Nodup := by
        rw [List.map_map]
        exact (List.map_id _).symm ▸ hgrammar.rules_nodup
      rw [Operation.amount, uses]
      split
      · rename_i hrule
        exact amountOf_of_mem hkeys (List.mem_map_of_mem (f := fun r => (r, amount)) hrule)
      · rename_i hrule
        rw [amountOf, List.map_map]
        apply sum_map_eq_zero
        rintro r hr
        apply if_neg
        rintro rfl
        exact hrule hr
  | increment counts factor =>
      rw [uses, amountOf_scaled, counts.amountOf_entries, Operation.amount]

theorem Nonneg.uses_nonneg {op : Operation} (h : op.Nonneg) (grammar : Grammar) :
    ∀ use ∈ op.uses grammar, 0 ≤ use.2 := by
  intro use huse
  cases op with
  | clear => cases huse
  | smooth amount =>
      obtain ⟨rule, _, rfl⟩ := List.mem_map.mp huse
      exact h
  | increment counts factor =>
      obtain ⟨e, he, rfl⟩ := List.mem_map.mp huse
      exact h e he

end Operation

noncomputable def applyAll (table : ConditionalTable ℝ) (ops : List Operation) :
    ConditionalTable ℝ :=
  ops.foldl Operation.apply table

/-- The operations after the last one that cleared the table. -/
def sinceClear (ops : List Operation) : List Operation :=
  ops.rtakeWhile fun op => !op.isClear

theorem groups_applyAll (table : ConditionalTable ℝ) (ops : List Operation) :
    (applyAll table ops).groups = table.groups :=
  groups_foldl table Operation.groups_apply ops

/-- A table tallies what was counted since it was last cleared. -/
theorem tallies_applyAll (grammar : Grammar) (ops : List Operation) :
    (applyAll (uncounted grammar) ops).Tallies
      ((sinceClear ops).flatMap (Operation.uses grammar)) := by
  induction ops using List.reverseRecOn with
  | nil => exact tallies_uncounted grammar
  | append_singleton ops op ih =>
      have hgroups := groups_applyAll (uncounted grammar) ops
      rw [sinceClear, List.rtakeWhile_concat, applyAll, List.foldl_append]
      change (op.apply (applyAll (uncounted grammar) ops)).Tallies _
      cases op with
      | clear => exact Tallies.clear _
      | smooth amount =>
          have hbinary := grouped_groupBy BinaryRule.parent grammar.binaryRules
          have hterminal := grouped_groupBy TerminalRule.parent grammar.terminalRules
          have hsmooth := ih.smooth amount ((Prod.mk.inj hgroups).1 ▸ hbinary)
            ((Prod.mk.inj hgroups).2 ▸ hterminal)
          have hrules : (applyAll (uncounted grammar) ops).groupedRules =
              (uncounted grammar).groupedRules := by
            rw [groupedRules, (Prod.mk.inj hgroups).1, (Prod.mk.inj hgroups).2]
            rfl
          rw [hrules] at hsmooth
          simp only [Operation.isClear, Bool.not_false, if_true, List.flatMap_append,
            List.flatMap_singleton]
          exact hsmooth.perm (((groupedRules_uncounted_perm grammar).map _).append_left _)
      | increment counts factor =>
          simp only [Operation.isClear, Bool.not_false, if_true, List.flatMap_append,
            List.flatMap_singleton]
          exact ih.increment counts factor

/-! ## Counts and shares -/

/-- What the operations on a new table since it was last cleared add to the count of a
rule.  To make the table is to smooth it by one. -/
noncomputable def countAfter (grammar : Grammar) (ops : List Operation) (rule : Rule) : ℝ :=
  ((sinceClear (.smooth 1 :: ops)).map (Operation.amount grammar rule)).sum

/-- The sum over all rules with a given parent. -/
noncomputable def sumOver (f : Rule → ℝ) (x : Symbol) : ℝ :=
  ∑ᶠ rule ∈ {rule : Rule | rule.parent = x}, f rule

/-- The part of a rule in what is counted of the rules with its parent. -/
noncomputable def share (count : Rule → ℝ) (rule : Rule) : ℝ :=
  if 0 < sumOver count rule.parent then count rule / sumOver count rule.parent else 0

theorem sumOver_eq_sum {f : Rule → ℝ} {rules : Finset Rule}
    (h : ∀ rule, f rule ≠ 0 → rule ∈ rules) (x : Symbol) :
    sumOver f x = ∑ rule ∈ rules with rule.parent = x, f rule := by
  apply finsum_mem_eq_sum_of_subset
  · intro rule hrule
    rw [Finset.coe_filter]
    exact ⟨h rule hrule.2, hrule.1⟩
  · intro rule hrule
    rw [Finset.coe_filter] at hrule
    exact hrule.2

section Shares

variable {count : Rule → ℝ} (hnonneg : ∀ rule, 0 ≤ count rule)
  (hfinite : (Function.support count).Finite)

include hnonneg hfinite

theorem le_sumOver (rule : Rule) : count rule ≤ sumOver count rule.parent := by
  have hrules : ∀ r, count r ≠ 0 → r ∈ insert rule hfinite.toFinset :=
    fun r hr => Finset.mem_insert_of_mem (hfinite.mem_toFinset.mpr hr)
  rw [sumOver_eq_sum hrules]
  apply Finset.single_le_sum fun r _ => hnonneg r
  exact Finset.mem_filter.mpr ⟨Finset.mem_insert_self _ _, rfl⟩

theorem share_mem_unit (rule : Rule) : 0 ≤ share count rule ∧ share count rule ≤ 1 := by
  have hle := le_sumOver hnonneg hfinite rule
  rw [share]
  split
  · rename_i hpos
    exact ⟨div_nonneg (hnonneg rule) hpos.le, (div_le_one hpos).mpr hle⟩
  · exact ⟨le_rfl, zero_le_one⟩

omit hnonneg in
theorem sumOver_share (x : Symbol) :
    sumOver (share count) x = 1 ∨ ∀ rule, rule.parent = x → share count rule = 0 := by
  by_cases hpos : 0 < sumOver count x
  · left
    have hcounts : ∀ rule, count rule ≠ 0 → rule ∈ hfinite.toFinset :=
      fun rule hrule => hfinite.mem_toFinset.mpr hrule
    have hshares : ∀ rule, share count rule ≠ 0 → rule ∈ hfinite.toFinset := by
      intro rule hrule
      apply hcounts
      intro hzero
      apply hrule
      rw [share, hzero, zero_div, ite_self]
    calc
      sumOver (share count) x =
          ∑ rule ∈ hfinite.toFinset with rule.parent = x, share count rule :=
        sumOver_eq_sum hshares x
      _ = ∑ rule ∈ hfinite.toFinset with rule.parent = x, count rule / sumOver count x := by
        apply Finset.sum_congr rfl
        intro rule hrule
        rw [share, (Finset.mem_filter.mp hrule).2, if_pos hpos]
      _ = sumOver count x / sumOver count x := by
        rw [← Finset.sum_div, ← sumOver_eq_sum hcounts]
      _ = 1 := div_self hpos.ne'
  · right
    rintro rule rfl
    exact if_neg hpos

end Shares

namespace Tallies

variable {table : ConditionalTable ℝ} {uses : List (Rule × ℝ)} (h : table.Tallies uses)

include h

theorem mem_uses_of_ruleCount {rule : Rule} (hrule : table.ruleCount rule ≠ 0) :
    rule ∈ (uses.map Prod.fst).toFinset := by
  by_contra hnot
  apply hrule
  rw [h.ruleCount_eq]
  apply sum_map_eq_zero
  intro use huse
  apply if_neg
  rintro rfl
  exact hnot (List.mem_toFinset.mpr (List.mem_map_of_mem huse))

theorem support_finite : (Function.support table.ruleCount).Finite :=
  (Finset.finite_toSet _).subset fun _ hrule => h.mem_uses_of_ruleCount hrule

theorem probability_eq_share (rule : Rule) :
    table.probability rule = share table.ruleCount rule := by
  have hused : ∀ use ∈ uses, use.1 ∈ (uses.map Prod.fst).toFinset :=
    fun use huse => List.mem_toFinset.mpr (List.mem_map_of_mem huse)
  have hparent : table.parentCount rule.parent = sumOver table.ruleCount rule.parent := by
    rw [h.parentCount_eq_sum hused, sumOver_eq_sum fun r => h.mem_uses_of_ruleCount]
  rw [table.probability_eq_ite, hparent, share]

end Tallies

/-! ## Histories -/

/-- The table of a grammar after some operations. -/
noncomputable def after (grammar : Grammar) (ops : List Operation) : ConditionalTable ℝ :=
  applyAll (ofGrammar grammar) ops

theorem tallies_after (grammar : Grammar) (ops : List Operation) :
    (after grammar ops).Tallies
      ((sinceClear (.smooth 1 :: ops)).flatMap (Operation.uses grammar)) :=
  tallies_applyAll grammar (.smooth 1 :: ops)

theorem groups_after (grammar : Grammar) (ops : List Operation) :
    (after grammar ops).groups = (uncounted grammar).groups :=
  groups_applyAll (uncounted grammar) (.smooth 1 :: ops)

theorem ruleCount_after {grammar : Grammar} (hgrammar : grammar.Indexed)
    (ops : List Operation) : (after grammar ops).ruleCount = countAfter grammar ops := by
  have huses : ∀ (ops : List Operation) (rule : Rule),
      amountOf (· = rule) (ops.flatMap (Operation.uses grammar)) =
        (ops.map (Operation.amount grammar rule)).sum := by
    intro ops rule
    induction ops with
    | nil => rfl
    | cons op rest ih =>
        rw [List.flatMap_cons, amountOf_append, ih, op.amountOf_uses hgrammar, List.map_cons,
          List.sum_cons]
  funext rule
  rw [(tallies_after grammar ops).ruleCount_eq, huses]
  rfl

/-- What can be read off two tables is the same, whatever is done to both. -/
def Indistinguishable (table table' : ConditionalTable ℝ) : Prop :=
  ∀ more : List Operation,
    (∀ rule, (applyAll table more).probability rule =
      (applyAll table' more).probability rule) ∧
    (applyAll table more).parents = (applyAll table' more).parents ∧
    ∀ x, (applyAll table more).rulesOf x = (applyAll table' more).rulesOf x

theorem sinceClear_append (ops more : List Operation) :
    sinceClear (ops ++ more) =
      if more.all fun op => !op.isClear then sinceClear ops ++ more else sinceClear more := by
  unfold sinceClear
  induction more using List.reverseRecOn with
  | nil => simp
  | append_singleton more op ih =>
      rw [← List.append_assoc, List.rtakeWhile_concat, ih, List.all_append,
        List.rtakeWhile_concat]
      cases hop : op.isClear
      · cases more.all fun op => !op.isClear <;> simp [hop]
      · simp [hop]

/-- More operations add to what was counted before, unless they clear it. -/
theorem countAfter_append (grammar : Grammar) (ops more : List Operation) (rule : Rule) :
    countAfter grammar (ops ++ more) rule =
      (if more.all fun op => !op.isClear then countAfter grammar ops rule else 0) +
        ((sinceClear more).map (Operation.amount grammar rule)).sum := by
  unfold countAfter
  rw [← List.cons_append, sinceClear_append]
  split
  · rename_i hkept
    have hall : sinceClear more = more :=
      List.rtakeWhile_eq_self_iff.mpr (List.all_eq_true.mp hkept)
    rw [hall, List.map_append, List.sum_append]
  · rw [zero_add]

theorem countAfter_eq_of_perm {grammar : Grammar} {ops ops' : List Operation}
    (hperm : (sinceClear (.smooth 1 :: ops)).Perm (sinceClear (.smooth 1 :: ops'))) :
    countAfter grammar ops = countAfter grammar ops' := by
  funext rule
  exact (hperm.map _).sum_eq

theorem countAfter_merge (grammar : Grammar) (ops : List Operation)
    (counts others : ExpectedCounts ℝ) (factor : ℝ) :
    countAfter grammar (ops ++ [.increment (counts.merge others) factor]) =
      countAfter grammar (ops ++ [.increment counts factor, .increment others factor]) := by
  funext rule
  rw [countAfter_append, countAfter_append]
  simp [sinceClear, List.rtakeWhile, Operation.isClear, Operation.amount,
    ExpectedCounts.get_merge, mul_add]

theorem countAfter_scale (grammar : Grammar) (ops : List Operation)
    (counts : ExpectedCounts ℝ) (factor : ℝ) :
    countAfter grammar (ops ++ [.increment (counts.scale factor) 1]) =
      countAfter grammar (ops ++ [.increment counts factor]) := by
  funext rule
  rw [countAfter_append, countAfter_append]
  simp [sinceClear, List.rtakeWhile, Operation.isClear, Operation.amount,
    ExpectedCounts.get_scale, mul_comm]

theorem countAfter_nonneg {grammar : Grammar} (hgrammar : grammar.Indexed)
    {ops : List Operation} (hops : ∀ op ∈ sinceClear (.smooth 1 :: ops), op.Nonneg)
    (rule : Rule) : 0 ≤ countAfter grammar ops rule := by
  rw [countAfter]
  apply sum_map_nonneg
  intro op hop
  rw [← op.amountOf_uses hgrammar]
  exact amountOf_nonneg _ ((hops op hop).uses_nonneg grammar)

theorem indistinguishable_of_count_eq {grammar : Grammar} (hgrammar : grammar.Indexed)
    {ops ops' : List Operation} (h : countAfter grammar ops = countAfter grammar ops') :
    Indistinguishable (after grammar ops) (after grammar ops') := by
  intro more
  have happend : ∀ ops, applyAll (after grammar ops) more = after grammar (ops ++ more) :=
    fun ops => (List.foldl_append ..).symm
  have hcounts : countAfter grammar (ops ++ more) = countAfter grammar (ops' ++ more) := by
    funext rule
    rw [countAfter_append, countAfter_append, h]
  have hgroups := (groups_after grammar (ops ++ more)).trans
    (groups_after grammar (ops' ++ more)).symm
  rw [happend, happend]
  refine ⟨fun rule => ?_, ?_, fun x => ?_⟩
  · rw [(tallies_after grammar _).probability_eq_share,
      (tallies_after grammar _).probability_eq_share, ruleCount_after hgrammar,
      ruleCount_after hgrammar, hcounts]
  · rw [parents, (Prod.mk.inj hgroups).1, (Prod.mk.inj hgroups).2, parents]
  · rw [rulesOf, (Prod.mk.inj hgroups).1, (Prod.mk.inj hgroups).2, rulesOf]

/-- The probability of a rule is its share in what was counted since the last clear, and
nothing else of the history of a table can be told. -/
theorem probability_is_share_since_clear (rules : List Rule) :
    let grammar := rules.foldl Grammar.add .empty
    (∀ ops, (Function.support (countAfter grammar ops)).Finite ∧
      ∀ rule, (after grammar ops).probability rule = share (countAfter grammar ops) rule) ∧
    (∀ ops ops', (sinceClear (.smooth 1 :: ops)).Perm (sinceClear (.smooth 1 :: ops')) →
      Indistinguishable (after grammar ops) (after grammar ops')) ∧
    (∀ ops counts others factor, Indistinguishable
      ((after grammar ops).increment (counts.merge others) factor)
      (((after grammar ops).increment counts factor).increment others factor)) ∧
    (∀ ops counts factor, Indistinguishable
      ((after grammar ops).increment (counts.scale factor) 1)
      ((after grammar ops).increment counts factor)) ∧
    ∀ ops, (∀ op ∈ sinceClear (.smooth 1 :: ops), op.Nonneg) → ∀ x,
      (∀ rule, rule.parent = x → 0 ≤ (after grammar ops).probability rule ∧
        (after grammar ops).probability rule ≤ 1) ∧
      (sumOver (after grammar ops).probability x = 1 ∨
        ∀ rule, rule.parent = x → (after grammar ops).probability rule = 0) := by
  intro grammar
  have hgrammar : grammar.Indexed := Grammar.Indexed.empty.foldl_add rules
  have hfinite : ∀ ops, (Function.support (countAfter grammar ops)).Finite := by
    intro ops
    rw [← ruleCount_after hgrammar]
    exact (tallies_after grammar ops).support_finite
  have hshare : ∀ ops, (after grammar ops).probability = share (countAfter grammar ops) := by
    intro ops
    funext rule
    rw [(tallies_after grammar ops).probability_eq_share, ruleCount_after hgrammar]
  have hincrement : ∀ ops more, applyAll (after grammar ops) more =
      after grammar (ops ++ more) := fun ops more => (List.foldl_append ..).symm
  refine ⟨?_, ?_, ?_, ?_, ?_⟩
  · exact fun ops => ⟨hfinite ops, congrFun (hshare ops)⟩
  · intro ops ops' hperm
    exact indistinguishable_of_count_eq hgrammar (countAfter_eq_of_perm hperm)
  · intro ops counts others factor
    have hmerge := indistinguishable_of_count_eq hgrammar
      (countAfter_merge grammar ops counts others factor)
    rwa [← hincrement, ← hincrement] at hmerge
  · intro ops counts factor
    have hscale := indistinguishable_of_count_eq hgrammar
      (countAfter_scale grammar ops counts factor)
    rwa [← hincrement, ← hincrement] at hscale
  · intro ops hops x
    have hnonneg := countAfter_nonneg hgrammar hops
    rw [hshare]
    exact ⟨fun rule _ => share_mem_unit hnonneg (hfinite ops) rule,
      sumOver_share (hfinite ops) x⟩

/-- Two rules that are counted three times and once share their parent so, whatever was
counted before the table was cleared. -/
theorem probability_is_share_since_clear_two_rules :
    let one : BinaryRule := ⟨⟨0⟩, ⟨1⟩, ⟨2⟩, none⟩
    let two : BinaryRule := ⟨⟨0⟩, ⟨2⟩, ⟨1⟩, none⟩
    let grammar := [Rule.binary one, .binary two].foldl Grammar.add .empty
    let counts : ExpectedCounts ℝ := ExpectedCounts.empty.addAll
      [(.binary one, 3 / 4), (.binary two, 1 / 4)]
    let ops : List Operation := [.smooth 5, .clear, .increment counts 2]
    (∀ op ∈ sinceClear (.smooth 1 :: ops), op.Nonneg) ∧
      (after grammar ops).probability (.binary one) = 3 / 4 ∧
      sumOver (after grammar ops).probability ⟨0⟩ = 1 := by
  intro one two grammar counts ops
  have hentries : counts.entries = [(.binary one, 3 / 4), (.binary two, 1 / 4)] :=
    ExpectedCounts.entries_addAll_empty (by simp [one, two])
  have hkept : sinceClear (.smooth 1 :: ops) = [.increment counts 2] := by
    simp [sinceClear, ops, List.rtakeWhile, Operation.isClear]
  have hnonneg : ∀ op ∈ sinceClear (.smooth 1 :: ops), op.Nonneg := by
    rw [hkept, List.forall_mem_singleton, Operation.Nonneg, hentries]
    norm_num
  have hcount : ∀ rule, countAfter grammar ops rule = 2 * counts.get rule := by
    intro rule
    rw [countAfter, hkept, List.map_singleton, List.sum_singleton, Operation.amount]
  have hget : ∀ rule, counts.get rule =
      (if .binary one = rule then 3 / 4 else 0) + if .binary two = rule then 1 / 4 else 0 := by
    intro rule
    rw [← counts.amountOf_entries, hentries, amountOf_cons, amountOf_cons, amountOf_nil,
      add_zero]
  have htotal : sumOver (countAfter grammar ops) ⟨0⟩ = 2 := by
    have hsupport : ∀ rule, countAfter grammar ops rule ≠ 0 →
        rule ∈ ({.binary one, .binary two} : Finset Rule) := by
      intro rule hrule
      by_contra hnot
      simp only [Finset.mem_insert, Finset.mem_singleton, not_or] at hnot
      apply hrule
      rw [hcount, hget, if_neg (Ne.symm hnot.1), if_neg (Ne.symm hnot.2), add_zero, mul_zero]
    rw [sumOver_eq_sum hsupport, Finset.filter_true_of_mem (by simp [one, two, Rule.parent]),
      Finset.sum_pair (by simp [one, two]), hcount, hcount, hget, hget]
    norm_num [one, two]
  obtain ⟨hshare, _, _, _, hsum⟩ :=
    probability_is_share_since_clear [Rule.binary one, .binary two]
  have hone : (after grammar ops).probability (.binary one) = 3 / 4 := by
    rw [(hshare ops).2, share]
    change (if 0 < sumOver (countAfter grammar ops) ⟨0⟩ then _ / sumOver _ ⟨0⟩ else _) = _
    rw [htotal, if_pos two_pos, hcount, hget]
    norm_num [one, two]
  refine ⟨hnonneg, hone, ((hsum ops hnonneg ⟨0⟩).2).resolve_right fun hzero => ?_⟩
  rw [hzero (.binary one) rfl] at hone
  norm_num at hone

end ConditionalTable

end WeightedParsing
