import WeightedParsing.Beam
import WeightedParsing.Proofs.Grammar.Index
import WeightedParsing.Proofs.Symbol

/-!
# Look-ups answer like scans

Whatever is asked of a grammar that was built rule by rule, the answer is the one of a
scan over the rules that were added.  The greatest length of a terminal rule is such an
answer as well, so a policy that looks it up anew, at whatever place of a stack of
wrappers around a grammar, leads to the charts that the stored length leads to.
-/

namespace WeightedParsing

/-! ## Answers of a grammar -/

namespace Grammar

/-- Whether a grammar answers like a scan over the rules that were added to it. -/
structure AnswersLikeScan (grammar : Grammar) (added : List Rule) : Prop where
  binary : grammar.binaryRules = (added.filterMap Rule.binary?).eraseDups
  terminal : grammar.terminalRules = (added.filterMap Rule.terminal?).eraseDups
  binary_parent : ∀ parent, grammar.binaryRulesForParent parent =
    grammar.binaryRules.filter fun rule => rule.parent = parent
  binary_children : ∀ left right, grammar.binaryRulesForChildren left right =
    grammar.binaryRules.filter fun rule => rule.left = left ∧ rule.right = right
  terminal_parent : ∀ parent, grammar.terminalRulesForParent parent =
    grammar.terminalRules.filter fun rule => rule.parent = parent
  terminal_words : ∀ words, grammar.terminalRulesForWords words =
    grammar.terminalRules.filter fun rule => rule.words = words
  terminal_span : ∀ input first last, first ≤ last →
    grammar.policy.terminalRules input first last =
      if last < input.length then
        grammar.terminalRules.filter fun rule =>
          rule.words = (input.drop first).take (last + 1 - first)
      else []
  mem_nonterminals : ∀ x, x ∈ grammar.nonterminals ↔ ∃ rule ∈ added, rule.parent = x
  nodup_nonterminals : grammar.nonterminals.Nodup

theorem Indexed.mem_nonterminals {grammar : Grammar} (hgrammar : grammar.Indexed)
    {x : Symbol} : x ∈ grammar.nonterminals ↔ ∃ rule ∈ grammar.rules, rule.parent = x := by
  have hbinary := hgrammar.binary_parent.mem_iff x
  have hterminal := hgrammar.terminal_parent.mem_iff x
  rw [nonterminals, Symbol.mem_sortDistinct, List.mem_append, Std.HashMap.mem_keys,
    Std.HashMap.mem_keys, hbinary, hterminal]
  simp [rules, binaryRules, terminalRules, Rule.parent, or_and_right, exists_or]

theorem Indexed.terminalRules_policy {grammar : Grammar} (hgrammar : grammar.Indexed)
    {input : List Symbol} {first last : Nat} (hspan : first ≤ last) :
    grammar.policy.terminalRules input first last =
      if last < input.length then
        grammar.terminalRules.filter fun rule =>
          rule.words = (input.drop first).take (last + 1 - first)
      else [] := by
  unfold policy inputSlice
  by_cases hlast : last < input.length
  · simp only [hspan, hlast, decide_true, Bool.and_self, if_true]
    exact hgrammar.terminal_words.find_eq_filter _
  · simp [hlast]

theorem mem_rules_foldl_add {added : List Rule} {rule : Rule} :
    rule ∈ (added.foldl Grammar.add .empty).rules ↔ rule ∈ added := by
  simp only [rules, binaryRules_foldl_add, terminalRules_foldl_add, List.mem_append,
    List.mem_map, List.mem_eraseDups, List.mem_filterMap]
  constructor
  · rintro (⟨_, ⟨other, hother, hform⟩, rfl⟩ | ⟨_, ⟨other, hother, hform⟩, rfl⟩)
    · cases other <;> cases hform
      exact hother
    · cases other <;> cases hform
      exact hother
  · intro hrule
    cases rule with
    | binary rule => exact .inl ⟨rule, ⟨_, hrule, rfl⟩, rfl⟩
    | terminal rule => exact .inr ⟨rule, ⟨_, hrule, rfl⟩, rfl⟩

end Grammar

/-! ## Wrapped policies -/

namespace Policy

/-- What may stand between a policy and a parser: a reference, which passes every question
on, a filter of the binary rules, or a policy that does not pass the greatest length on. -/
inductive Wrapper where
  | reference
  | restrict (keep : (first last split : Nat) → BinaryRule → Bool)
  | scanLength

namespace Wrapper

def wrap : Wrapper → Policy → Policy
  | reference, policy => policy
  | restrict keep, policy => policy.restrict keep
  | scanLength, policy => policy.scanLength

/-- Puts wrappers around a policy, the last of the list innermost. -/
def wrapAll (stack : List Wrapper) (policy : Policy) : Policy :=
  stack.foldr wrap policy

def isRestriction : Wrapper → Bool
  | restrict _ => true
  | _ => false

end Wrapper

/-- Whether the stored greatest length is the one that would be looked up. -/
def StoresLength (policy : Policy) : Prop :=
  policy.maxTerminalLength = policy.longestTerminalRule

theorem StoresLength.scanLength_eq {policy : Policy} (h : policy.StoresLength) :
    policy.scanLength = policy := by
  unfold scanLength
  rw [← h]

theorem StoresLength.wrapAll {policy : Policy} (h : policy.StoresLength)
    (stack : List Wrapper) : (Wrapper.wrapAll stack policy).StoresLength := by
  induction stack with
  | nil => exact h
  | cons wrapper stack ih =>
      cases wrapper with
      | reference => exact ih
      | restrict keep => exact ih
      | scanLength => exact rfl

theorem longestTerminalRule_wrapAll (stack : List Wrapper) (policy : Policy) :
    (Wrapper.wrapAll stack policy).longestTerminalRule = policy.longestTerminalRule := by
  induction stack with
  | nil => rfl
  | cons wrapper stack ih => cases wrapper <;> exact ih

/-- Only the wrappers that leave out rules matter. -/
theorem StoresLength.wrapAll_eq {policy : Policy} (h : policy.StoresLength)
    (stack : List Wrapper) :
    Wrapper.wrapAll stack policy =
      Wrapper.wrapAll (stack.filter Wrapper.isRestriction) policy := by
  induction stack with
  | nil => rfl
  | cons wrapper stack ih =>
      cases wrapper with
      | reference => exact ih
      | restrict keep => exact congrArg (Policy.restrict keep) ih
      | scanLength => exact (h.wrapAll stack).scanLength_eq.trans ih

/-- Whether parsing under two policies gives the same charts, whatever the weights. -/
structure SameCharts (policy other : Policy) : Prop where
  inside : ∀ {K S : Type} [WeightAlgebra K S] (weight : Rule → K) (width : Nat)
    (hwidth : 0 < width) (input : List Symbol),
    (Chart.parseInside ⟨policy, weight⟩ width hwidth input : Except ChartError (Chart S)) =
      Chart.parseInside ⟨other, weight⟩ width hwidth input
  marginal : ∀ {K S : Type} [Scalar K] [WeightAlgebra K S] (weight : Rule → K) (width : Nat)
    (hwidth : 0 < width) (prior : RootPrior K) (input : List Symbol),
    (Chart.parseMarginal ⟨policy, weight⟩ width hwidth prior input :
        Except ChartError (Chart S)) =
      Chart.parseMarginal ⟨other, weight⟩ width hwidth prior input
  beam : ∀ {K S : Type} [WeightAlgebra K S] (weight : Rule → K) (size : Nat)
    (hsize : 0 < size) (input : List Symbol),
    (BeamChart.run ⟨policy, weight⟩ size hsize input : BeamChart S) =
      BeamChart.run ⟨other, weight⟩ size hsize input

theorem SameCharts.of_eq {policy other : Policy} (h : policy = other) :
    policy.SameCharts other := by
  subst h
  exact ⟨fun _ _ _ _ => rfl, fun _ _ _ _ _ => rfl, fun _ _ _ _ => rfl⟩

end Policy

theorem Grammar.Indexed.storesLength_policy {grammar : Grammar}
    (hgrammar : grammar.Indexed) : grammar.policy.StoresLength :=
  hgrammar.longest

/-- A grammar answers like a scan over the rules that were added to it.  That holds of the
greatest length of a terminal rule through any wrappers, and so the charts do not depend on
which of them look it up. -/
theorem Grammar.lookups_agree_with_scan (added : List Rule) :
    let grammar := added.foldl Grammar.add .empty
    grammar.AnswersLikeScan added ∧
      ∀ stack : List Policy.Wrapper,
        let wrapped := Policy.Wrapper.wrapAll stack grammar.policy
        wrapped.maxTerminalLength = wrapped.longestTerminalRule ∧
          wrapped.longestTerminalRule = grammar.maxTerminalLength ∧
          wrapped.SameCharts
            (Policy.Wrapper.wrapAll (stack.filter Policy.Wrapper.isRestriction)
              grammar.policy) := by
  intro grammar
  have hgrammar : grammar.Indexed := Grammar.Indexed.empty.foldl_add added
  have hlength := hgrammar.storesLength_policy
  constructor
  · constructor
    · exact binaryRules_foldl_add added
    · exact terminalRules_foldl_add added
    · exact hgrammar.binary_parent.find_eq_filter
    · intro left right
      have hchildren := hgrammar.binary_children.find_eq_filter (left, right)
      simp only [Prod.mk.injEq] at hchildren
      exact hchildren
    · exact hgrammar.terminal_parent.find_eq_filter
    · exact hgrammar.terminal_words.find_eq_filter
    · exact fun input first last hspan => hgrammar.terminalRules_policy hspan
    · intro x
      rw [hgrammar.mem_nonterminals]
      simp only [grammar, mem_rules_foldl_add]
    · exact Symbol.nodup_sortDistinct _
  · intro stack wrapped
    have hstored : wrapped.StoresLength := hlength.wrapAll stack
    have hlongest := Policy.longestTerminalRule_wrapAll stack grammar.policy
    exact ⟨hstored, hlongest.trans hlength.symm, .of_eq (hlength.wrapAll_eq stack)⟩

/-- A rule that is added twice stands once, and apart from the rule of another type.  The
compound of two words is found where both stand, and its length through wrappers. -/
theorem Grammar.lookups_agree_with_scan_repeated_rule :
    let split : BinaryRule := ⟨⟨0⟩, ⟨0⟩, ⟨0⟩, none⟩
    let typed : BinaryRule := ⟨⟨0⟩, ⟨0⟩, ⟨0⟩, some ⟨1⟩⟩
    let compound : TerminalRule := ⟨⟨0⟩, [⟨2⟩, ⟨3⟩], none⟩
    ∃ grammar : Grammar,
      [Rule.binary split, .terminal compound, .binary typed, .binary split].foldl
          Grammar.add .empty = grammar ∧
        grammar.binaryRulesForParent ⟨0⟩ = [split, typed] ∧
        grammar.policy.terminalRules [⟨3⟩, ⟨2⟩, ⟨3⟩] 1 2 = [compound] ∧
        ⟨0⟩ ∈ grammar.nonterminals ∧
        (Policy.Wrapper.wrapAll [.scanLength, .reference] grammar.policy).maxTerminalLength =
          2 := by
  intro split typed compound
  obtain ⟨grammar, hgrammar⟩ : ∃ grammar,
      [Rule.binary split, .terminal compound, .binary typed, .binary split].foldl
        Grammar.add .empty = grammar := ⟨_, rfl⟩
  obtain ⟨hanswers, hwrapped⟩ := Grammar.lookups_agree_with_scan
    [.binary split, .terminal compound, .binary typed, .binary split]
  rw [hgrammar] at hanswers hwrapped
  have hbinary : grammar.binaryRules = [split, typed] := hanswers.binary
  have hterminal : grammar.terminalRules = [compound] := hanswers.terminal
  have hlongest : grammar.policy.longestTerminalRule = 2 := by
    rw [Policy.longestTerminalRule, show grammar.policy.allTerminalRules = _ from hterminal]
    rfl
  refine ⟨grammar, hgrammar, ?_, ?_, ?_, ?_⟩
  · rw [hanswers.binary_parent, hbinary]
    rfl
  · rw [hanswers.terminal_span _ 1 2 (by decide), hterminal]
    rfl
  · exact (hanswers.mem_nonterminals _).mpr ⟨_, List.mem_cons_self, rfl⟩
  · exact (hwrapped [.scanLength, .reference]).1.trans hlongest

end WeightedParsing
