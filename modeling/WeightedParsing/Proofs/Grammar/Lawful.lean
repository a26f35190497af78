import Mathlib.Data.List.Nodup
import WeightedParsing.Grammar.Policy

/-!
# Lawful policies

What a parser relies on when it asks a policy for rules: no answer lists a rule
twice, the terminal rules for a span produce that span, and none of them is
longer than the policy says.  A grammar built rule by rule answers like a plain
scan of its rules, which is lawful, and leaving out binary rules keeps a policy
lawful.  Sums over derivations ask for less: which words a terminal rule has is
of no matter to them, as long as no span with terminal rules is passed over.
-/

namespace WeightedParsing

/-- The contract between a policy and a parser. -/
structure Policy.Lawful (policy : Policy) : Prop where
  binary_nodup : ∀ first last split, (policy.binaryRules first last split).Nodup
  terminal_nodup :
    ∀ input first last, (policy.terminalRules input first last).Nodup
  terminal_exact :
    ∀ input first last, first ≤ last → last < input.length →
      ∀ rule ∈ policy.terminalRules input first last,
        inputSlice input first last = some rule.words
  terminal_length :
    ∀ input first last, first ≤ last → last < input.length →
      ∀ rule ∈ policy.terminalRules input first last,
        rule.words.length ≤ policy.maxTerminalLength

theorem length_of_inputSlice {input words : List Symbol} {first last : Nat}
    (h : inputSlice input first last = some words) :
    words.length = last + 1 - first := by
  unfold inputSlice at h
  split at h
  · rename_i hspan
    simp only [Bool.and_eq_true, decide_eq_true_eq] at hspan
    injection h with h
    subst h
    simp
    omega
  · contradiction

/-- No answer lists a rule twice, and all spans with terminal rules are looked up. -/
structure Policy.Covering (policy : Policy) : Prop where
  binary_nodup : ∀ first last split, (policy.binaryRules first last split).Nodup
  terminal_nodup :
    ∀ input first last, (policy.terminalRules input first last).Nodup
  span_length :
    ∀ input first last, first ≤ last → last < input.length →
      ∀ rule ∈ policy.terminalRules input first last,
        last + 1 - first ≤ policy.maxTerminalLength

theorem Policy.Lawful.covering {policy : Policy} (hpolicy : policy.Lawful) :
    policy.Covering where
  binary_nodup := hpolicy.binary_nodup
  terminal_nodup := hpolicy.terminal_nodup
  span_length := by
    intro input first last hspan hlast rule hrule
    have hexact := hpolicy.terminal_exact input first last hspan hlast rule hrule
    rw [← length_of_inputSlice hexact]
    exact hpolicy.terminal_length input first last hspan hlast rule hrule

instance {policy : Policy} : Coe policy.Lawful policy.Covering :=
  ⟨Policy.Lawful.covering⟩

/-- Spans that are too long to be looked up have no terminal rules anyway. -/
theorem Policy.Covering.lexicalRules_eq {policy : Policy} (hpolicy : policy.Covering)
    {input : List Symbol} {first last : Nat} (hspan : first ≤ last)
    (hlast : last < input.length) :
    policy.lexicalRules input first last = policy.terminalRules input first last := by
  unfold Policy.lexicalRules
  split
  · rfl
  · rename_i hlong
    symm
    rw [List.eq_nil_iff_forall_not_mem]
    intro rule hrule
    exact hlong (hpolicy.span_length input first last hspan hlast rule hrule)

section Restrict

variable {policy : Policy} (keep : (first last split : Nat) → BinaryRule → Bool)

theorem Policy.Covering.restrict (hpolicy : policy.Covering) :
    (policy.restrict keep).Covering where
  binary_nodup := fun first last split =>
    (hpolicy.binary_nodup first last split).filter _
  terminal_nodup := hpolicy.terminal_nodup
  span_length := hpolicy.span_length

theorem Policy.Lawful.restrict (hpolicy : policy.Lawful) :
    (policy.restrict keep).Lawful where
  binary_nodup := (hpolicy.covering.restrict keep).binary_nodup
  terminal_nodup := hpolicy.terminal_nodup
  terminal_exact := hpolicy.terminal_exact
  terminal_length := hpolicy.terminal_length

end Restrict

/-! ## Plain scans -/

/-- The policy that scans two lists of rules for each answer. -/
def Policy.scan (binary : List BinaryRule) (terminal : List TerminalRule) :
    Policy where
  binaryRules := fun _ _ _ => binary
  terminalRules := fun input first last =>
    terminal.filter fun rule => inputSlice input first last = some rule.words
  allTerminalRules := terminal
  maxTerminalLength :=
    terminal.foldl (fun longest rule => max longest rule.words.length) 0

theorem le_foldl_max {rules : List TerminalRule} {longest : Nat} :
    longest ≤ rules.foldl (fun longest rule => max longest rule.words.length) longest ∧
      ∀ rule ∈ rules, rule.words.length ≤
        rules.foldl (fun longest rule => max longest rule.words.length) longest := by
  induction rules generalizing longest with
  | nil => simp
  | cons rule rest ih =>
      rw [List.foldl_cons]
      have hrest := @ih (max longest rule.words.length)
      constructor
      · exact Nat.le_trans (Nat.le_max_left _ _) hrest.1
      · intro r hr
        rcases List.mem_cons.mp hr with rfl | hr
        · exact Nat.le_trans (Nat.le_max_right _ _) hrest.1
        · exact hrest.2 r hr

theorem Policy.scan_lawful {binary : List BinaryRule} {terminal : List TerminalRule}
    (hbinary : binary.Nodup) (hterminal : terminal.Nodup) :
    (Policy.scan binary terminal).Lawful where
  binary_nodup := fun _ _ _ => hbinary
  terminal_nodup := fun _ _ _ => hterminal.filter _
  terminal_exact := by
    intro input first last _ _ rule hrule
    simpa using (List.mem_filter.mp hrule).2
  terminal_length := by
    intro input first last _ _ rule hrule
    exact le_foldl_max.2 rule (List.mem_filter.mp hrule).1

end WeightedParsing
