import Std.Data.HashMap.Lemmas
import Std.Data.HashSet.Lemmas
import WeightedParsing.Proofs.Distinct
import WeightedParsing.Proofs.Grammar.Lawful

/-!
# The indexes of a grammar

Adding a rule updates the lists, the sets of known rules and every index at once.
The invariant says that each index leads to the rules that a filter of the rule
list would keep, and that the stored greatest length is the one a scan would find.
From it, a grammar that was built rule by rule lists the distinct ones of its rules in
the order in which they first came.
-/

namespace WeightedParsing

namespace RuleIndex

variable {κ ρ : Type} [BEq κ] [Hashable κ]

theorem find_eq (rules : Array ρ) (index : RuleIndex κ rules.size) (key : κ) :
    find rules index key =
      (index.positions.getD key #[]).toList.filterMap fun i => rules[i]? := by
  have hall : (index.positions.getD key #[]).toList =
      (index.positions.getD key #[]).attach.toList.map Subtype.val := by
    rw [← Array.toList_map, Array.attach_map_subtype_val]
  rw [hall, List.filterMap_map, find, ← List.filterMap_eq_map]
  apply List.filterMap_congr
  rintro ⟨i, hi⟩ _
  exact (Array.getElem?_eq_getElem (index.in_range key i hi)).symm

@[simp] theorem find_empty (rules : Array ρ) (key : κ) :
    find rules (.empty : RuleIndex κ rules.size) key = [] := by
  simp [find_eq, empty]

/-- The index leads to the rule that was put behind the others as well. -/
theorem find_add [LawfulBEq κ] [DecidableEq κ] (rules : Array ρ)
    (index : RuleIndex κ rules.size) (key k : κ) (rule : ρ) :
    find (rules.push rule) (index.add key (Array.size_push rule)) k =
      find rules index k ++ if key = k then [rule] else [] := by
  have hkept : ((index.positions.getD k #[]).toList.filterMap fun i =>
        (rules.push rule)[i]?) =
      (index.positions.getD k #[]).toList.filterMap fun i => rules[i]? := by
    apply List.filterMap_congr
    intro i hi
    have hrange := index.in_range k i (Array.mem_toList_iff.mp hi)
    rw [Array.getElem?_push, if_neg (by omega)]
  rw [find_eq, find_eq, ← hkept]
  unfold add
  rw [Std.HashMap.getD_alter]
  by_cases hk : key = k
  · subst hk
    simp [Std.HashMap.getD_eq_getD_getElem?]
  · simp [hk]

theorem mem_add [LawfulBEq κ] {size larger : Nat} (index : RuleIndex κ size) (key k : κ)
    (hlarger : larger = size + 1) :
    k ∈ (index.add key hlarger).positions ↔ key = k ∨ k ∈ index.positions := by
  unfold add
  rw [Std.HashMap.mem_alter]
  by_cases hk : key = k
  · simp [hk]
  · simp [hk]

/-- Whether an index leads from a key to the rules that a filter by the key would keep,
and has no other keys than those of the rules. -/
structure Indexes {rules : Array ρ} (index : RuleIndex κ rules.size) [DecidableEq κ]
    (key : ρ → κ) : Prop where
  find_eq_filter : ∀ k, find rules index k = rules.toList.filter fun rule => key rule = k
  mem_iff : ∀ k, k ∈ index.positions ↔ ∃ rule ∈ rules.toList, key rule = k

variable [DecidableEq κ] {key : ρ → κ}

theorem Indexes.empty : (.empty : RuleIndex κ (#[] : Array ρ).size).Indexes key where
  find_eq_filter := by simp
  mem_iff := by simp [RuleIndex.empty]

theorem Indexes.add [LawfulBEq κ] {rules : Array ρ} {index : RuleIndex κ rules.size}
    (h : index.Indexes key) (rule : ρ) :
    (index.add (key rule) (Array.size_push rule) : RuleIndex κ (rules.push rule).size).Indexes
      key where
  find_eq_filter := by
    intro k
    rw [find_add, h.find_eq_filter, Array.toList_push, List.filter_append,
      List.filter_singleton]
    simp
  mem_iff := by
    intro k
    rw [mem_add, h.mem_iff, Array.toList_push]
    simp [or_comm, or_and_right, exists_or]

end RuleIndex

namespace Grammar

def rules (grammar : Grammar) : List Rule :=
  grammar.binaryRules.map .binary ++ grammar.terminalRules.map .terminal

structure Indexed (grammar : Grammar) : Prop where
  binary_nodup : grammar.binaryRules.Nodup
  terminal_nodup : grammar.terminalRules.Nodup
  binary_seen : ∀ rule, grammar.binarySeen.contains rule = true ↔
    rule ∈ grammar.binaryRules
  terminal_seen : ∀ rule, grammar.terminalSeen.contains rule = true ↔
    rule ∈ grammar.terminalRules
  binary_parent : grammar.binaryByParent.Indexes BinaryRule.parent
  binary_children : grammar.binaryByChildren.Indexes fun rule => (rule.left, rule.right)
  terminal_parent : grammar.terminalByParent.Indexes TerminalRule.parent
  terminal_words : grammar.terminalByWords.Indexes TerminalRule.words
  longest :
    grammar.maxTerminalLength =
      grammar.terminalRules.foldl (fun longest rule => max longest rule.words.length) 0

theorem Indexed.empty : Grammar.empty.Indexed where
  binary_nodup := .nil
  terminal_nodup := .nil
  binary_seen := by simp [Grammar.empty, binaryRules]
  terminal_seen := by simp [Grammar.empty, terminalRules]
  binary_parent := .empty
  binary_children := .empty
  terminal_parent := .empty
  terminal_words := .empty
  longest := rfl

/-- A rule that was not seen yet joins the rules, which still stand once each. -/
theorem nodup_push {ρ : Type} {rules : Array ρ} (hrules : rules.toList.Nodup) {rule : ρ}
    (hnew : rule ∉ rules.toList) : (rules.push rule).toList.Nodup := by
  rw [Array.toList_push, ← List.concat_eq_append]
  exact hrules.concat hnew

theorem contains_insert_iff {ρ : Type} [BEq ρ] [Hashable ρ] [LawfulBEq ρ]
    {rules : Array ρ} {seen : Std.HashSet ρ}
    (hseen : ∀ r, seen.contains r = true ↔ r ∈ rules.toList) (rule r : ρ) :
    (seen.insert rule).contains r = true ↔ r ∈ (rules.push rule).toList := by
  rw [Std.HashSet.contains_insert, Bool.or_eq_true, hseen, beq_iff_eq, Array.toList_push,
    List.mem_append, List.mem_singleton, or_comm, eq_comm]

theorem Indexed.addBinary {grammar : Grammar} (hgrammar : grammar.Indexed)
    (rule : BinaryRule) : (grammar.addBinary rule).Indexed := by
  unfold Grammar.addBinary
  split
  · exact hgrammar
  · rename_i hnew
    rw [hgrammar.binary_seen] at hnew
    constructor
    · exact nodup_push hgrammar.binary_nodup hnew
    · exact hgrammar.terminal_nodup
    · exact contains_insert_iff hgrammar.binary_seen rule
    · exact hgrammar.terminal_seen
    · exact hgrammar.binary_parent.add rule
    · exact hgrammar.binary_children.add rule
    · exact hgrammar.terminal_parent
    · exact hgrammar.terminal_words
    · exact hgrammar.longest

theorem Indexed.addTerminal {grammar : Grammar} (hgrammar : grammar.Indexed)
    (rule : TerminalRule) : (grammar.addTerminal rule).Indexed := by
  unfold Grammar.addTerminal
  split
  · exact hgrammar
  · rename_i hnew
    rw [hgrammar.terminal_seen] at hnew
    constructor
    · exact hgrammar.binary_nodup
    · exact nodup_push hgrammar.terminal_nodup hnew
    · exact hgrammar.binary_seen
    · exact contains_insert_iff hgrammar.terminal_seen rule
    · exact hgrammar.binary_parent
    · exact hgrammar.binary_children
    · exact hgrammar.terminal_parent.add rule
    · exact hgrammar.terminal_words.add rule
    · have hold := hgrammar.longest
      simp only [terminalRules, Array.toList_push, List.foldl_append, List.foldl_cons,
        List.foldl_nil] at hold ⊢
      rw [hold]

theorem Indexed.add {grammar : Grammar} (hgrammar : grammar.Indexed) (rule : Rule) :
    (grammar.add rule).Indexed := by
  cases rule with
  | binary rule => exact hgrammar.addBinary rule
  | terminal rule => exact hgrammar.addTerminal rule

theorem Indexed.foldl_add {grammar : Grammar} (hgrammar : grammar.Indexed)
    (rules : List Rule) : (rules.foldl Grammar.add grammar).Indexed := by
  induction rules generalizing grammar with
  | nil => exact hgrammar
  | cons rule rest ih => exact ih (hgrammar.add rule)

theorem Indexed.rules_nodup {grammar : Grammar} (hgrammar : grammar.Indexed) :
    grammar.rules.Nodup := by
  rw [rules, List.nodup_append]
  refine ⟨hgrammar.binary_nodup.map fun _ _ => Rule.binary.inj,
    hgrammar.terminal_nodup.map fun _ _ => Rule.terminal.inj, ?_⟩
  intro a ha b hb hab
  obtain ⟨rule, _, rfl⟩ := List.mem_map.mp ha
  obtain ⟨rule', _, rfl⟩ := List.mem_map.mp hb
  cases hab

theorem Indexed.policy_eq_scan {grammar : Grammar} (hgrammar : grammar.Indexed) :
    grammar.policy = Policy.scan grammar.binaryRules grammar.terminalRules := by
  have hterminal : grammar.policy.terminalRules =
      (Policy.scan grammar.binaryRules grammar.terminalRules).terminalRules := by
    funext input first last
    unfold Grammar.policy Policy.scan
    cases hslice : inputSlice input first last with
    | none => simp [hslice]
    | some words =>
        simp only [hslice, terminalRulesForWords, hgrammar.terminal_words.find_eq_filter,
          Option.some.injEq]
        congr 1
        funext rule
        exact decide_eq_decide.mpr eq_comm
  have hlongest := hgrammar.longest
  unfold Policy.scan at hterminal ⊢
  unfold Grammar.policy at hterminal ⊢
  simp only at hterminal ⊢
  rw [hterminal, hlongest]

theorem Indexed.policy_lawful {grammar : Grammar} (hgrammar : grammar.Indexed) :
    grammar.policy.Lawful := by
  rw [hgrammar.policy_eq_scan]
  exact Policy.scan_lawful hgrammar.binary_nodup hgrammar.terminal_nodup

/-! ## The rules that were added -/

theorem Indexed.binaryRules_addBinary {grammar : Grammar} (hgrammar : grammar.Indexed)
    (rule : BinaryRule) :
    (grammar.addBinary rule).binaryRules =
      if rule ∈ grammar.binaryRules then grammar.binaryRules
      else grammar.binaryRules ++ [rule] := by
  unfold Grammar.addBinary
  simp only [hgrammar.binary_seen]
  split
  · rfl
  · exact Array.toList_push

theorem Indexed.terminalRules_addTerminal {grammar : Grammar}
    (hgrammar : grammar.Indexed) (rule : TerminalRule) :
    (grammar.addTerminal rule).terminalRules =
      if rule ∈ grammar.terminalRules then grammar.terminalRules
      else grammar.terminalRules ++ [rule] := by
  unfold Grammar.addTerminal
  simp only [hgrammar.terminal_seen]
  split
  · rfl
  · exact Array.toList_push

theorem terminalRules_addBinary (grammar : Grammar) (rule : BinaryRule) :
    (grammar.addBinary rule).terminalRules = grammar.terminalRules := by
  unfold addBinary
  split <;> rfl

theorem binaryRules_addTerminal (grammar : Grammar) (rule : TerminalRule) :
    (grammar.addTerminal rule).binaryRules = grammar.binaryRules := by
  unfold addTerminal
  split <;> rfl

theorem Indexed.mem_rules_add {grammar : Grammar} (hgrammar : grammar.Indexed)
    {rule other : Rule} :
    other ∈ (grammar.add rule).rules ↔ other ∈ grammar.rules ∨ other = rule := by
  cases rule with
  | binary rule =>
      simp only [Grammar.add, rules, hgrammar.binaryRules_addBinary, terminalRules_addBinary]
      split <;> cases other <;> simp
      rintro rfl
      assumption
  | terminal rule =>
      simp only [Grammar.add, rules, hgrammar.terminalRules_addTerminal, binaryRules_addTerminal]
      split <;> cases other <;> simp
      rintro rfl
      assumption

/-- The binary rules are the distinct ones that were added, as they first came. -/
theorem binaryRules_foldl_add (added : List Rule) :
    (added.foldl Grammar.add .empty).binaryRules =
      (added.filterMap Rule.binary?).eraseDups := by
  induction added using List.reverseRecOn with
  | nil => rfl
  | append_singleton before rule ih =>
      have hbefore := Indexed.empty.foldl_add before
      rw [List.foldl_append, List.foldl_cons, List.foldl_nil, List.filterMap_append]
      cases rule with
      | binary rule =>
          change (addBinary _ rule).binaryRules = (_ ++ [rule]).eraseDups
          rw [hbefore.binaryRules_addBinary, eraseDups_concat, ih]
          simp only [List.mem_eraseDups]
      | terminal rule =>
          change (addTerminal _ rule).binaryRules = (_ ++ []).eraseDups
          rw [binaryRules_addTerminal, List.append_nil, ih]

/-- The terminal rules are the distinct ones that were added, as they first came. -/
theorem terminalRules_foldl_add (added : List Rule) :
    (added.foldl Grammar.add .empty).terminalRules =
      (added.filterMap Rule.terminal?).eraseDups := by
  induction added using List.reverseRecOn with
  | nil => rfl
  | append_singleton before rule ih =>
      have hbefore := Indexed.empty.foldl_add before
      rw [List.foldl_append, List.foldl_cons, List.foldl_nil, List.filterMap_append]
      cases rule with
      | binary rule =>
          change (addBinary _ rule).terminalRules = (_ ++ []).eraseDups
          rw [terminalRules_addBinary, List.append_nil, ih]
      | terminal rule =>
          change (addTerminal _ rule).terminalRules = (_ ++ [rule]).eraseDups
          rw [hbefore.terminalRules_addTerminal, eraseDups_concat, ih]
          simp only [List.mem_eraseDups]

end Grammar

end WeightedParsing
