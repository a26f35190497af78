import Mathlib.Algebra.BigOperators.Ring.List
import Mathlib.Data.List.FinRange
import WeightedParsing.Model
import WeightedParsing.Proofs.Grammar.Lawful
import WeightedParsing.Proofs.Weight.ZeroSumFree

/-!
# Derivations

A derivation of a symbol over a span is a terminal rule that the policy allows
there, or a binary rule that it allows at a split, over a derivation on either
side.  A derivation has no weights of its own; it weighs what its rules weigh
together.  The derivations of a span are also listed, each of them once, so that
one can sum over them.
-/

namespace WeightedParsing

inductive Derivation where
  | leaf (rule : TerminalRule)
  | node (split : Nat) (rule : BinaryRule) (left right : Derivation)
deriving DecidableEq, Repr

/-- The entries of a list are the things with a property, each listed once. -/
structure IsListing {α : Type} (entries : List α) (p : α → Prop) : Prop where
  nodup : entries.Nodup
  mem_iff : ∀ a, a ∈ entries ↔ p a

/-- `Derives policy input x first last d`: the policy allows `d` as a derivation
of `x` over the span from `first` to `last`. -/
inductive Derives (policy : Policy) (input : List Symbol) :
    Symbol → Nat → Nat → Derivation → Prop where
  | leaf {first last : Nat} {rule : TerminalRule}
      (hrule : rule ∈ policy.terminalRules input first last) :
      Derives policy input rule.parent first last (.leaf rule)
  | node {first last split : Nat} {rule : BinaryRule} {left right : Derivation}
      (hsplit : split < last - first)
      (hrule : rule ∈ policy.binaryRules first last split)
      (hleft : Derives policy input rule.left first (first + split) left)
      (hright : Derives policy input rule.right (first + split + 1) last right) :
      Derives policy input rule.parent first last (.node split rule left right)

namespace Derivation

def root : Derivation → Symbol
  | leaf rule => rule.parent
  | node _ rule _ _ => rule.parent

def rule : Derivation → Rule
  | leaf rule => .terminal rule
  | node _ rule _ _ => .binary rule

/-- All rules of a derivation, from the top down and from left to right. -/
def rules : Derivation → List Rule
  | leaf rule => [.terminal rule]
  | node _ rule left right => .binary rule :: (left.rules ++ right.rules)

def weight {K S : Type} [WeightAlgebra K S] (model : Model K) : Derivation → S
  | leaf rule => model.weigh (.terminal rule)
  | node _ rule left right =>
      model.weigh (.binary rule) * left.weight model * right.weight model

end Derivation

theorem Derives.root_eq {policy : Policy} {input : List Symbol} {x : Symbol}
    {first last : Nat} {d : Derivation} (h : Derives policy input x first last d) :
    d.root = x := by
  cases h <;> rfl

theorem derives_node_iff {policy : Policy} {input : List Symbol} {x : Symbol}
    {first last split : Nat} {rule : BinaryRule} {left right : Derivation} :
    Derives policy input x first last (.node split rule left right) ↔
      rule.parent = x ∧ split < last - first ∧
        rule ∈ policy.binaryRules first last split ∧
          Derives policy input rule.left first (first + split) left ∧
            Derives policy input rule.right (first + split + 1) last right := by
  constructor
  · intro h
    cases h with
    | node hsplit hrule hleft hright => exact ⟨rfl, hsplit, hrule, hleft, hright⟩
  · rintro ⟨rfl, hsplit, hrule, hleft, hright⟩
    exact .node hsplit hrule hleft hright

theorem derives_leaf_iff {policy : Policy} {input : List Symbol} {x : Symbol}
    {first last : Nat} {rule : TerminalRule} :
    Derives policy input x first last (.leaf rule) ↔
      rule.parent = x ∧ rule ∈ policy.terminalRules input first last := by
  constructor
  · intro h
    cases h with
    | leaf hrule => exact ⟨rfl, hrule⟩
  · rintro ⟨rfl, hrule⟩
    exact .leaf hrule

/-! ## Listing derivations -/

/-- All derivations with a rule at the top of a left and a right derivation. -/
def joins (split : Nat) (rule : BinaryRule) (lefts rights : List Derivation) :
    List Derivation :=
  lefts.flatMap fun left => rights.map fun right => .node split rule left right

/-- The derivations of a span, whatever their root. -/
def derivationsOver (policy : Policy) (input : List Symbol) (first last : Nat) :
    List Derivation :=
  (policy.terminalRules input first last).map .leaf ++
    (List.finRange (last - first)).flatMap fun split : Fin (last - first) =>
      (policy.binaryRules first last split).flatMap fun rule =>
        joins split rule
          ((derivationsOver policy input first (first + split)).filter
            fun left => left.root = rule.left)
          ((derivationsOver policy input (first + split + 1) last).filter
            fun right => right.root = rule.right)
termination_by last - first
decreasing_by all_goals have := split.isLt; omega

def derivations (policy : Policy) (input : List Symbol) (x : Symbol)
    (first last : Nat) : List Derivation :=
  (derivationsOver policy input first last).filter fun d => d.root = x

def completeDerivations (policy : Policy) (input : List Symbol) :
    List Derivation :=
  derivationsOver policy input 0 (input.length - 1)

theorem mem_joins {split : Nat} {rule : BinaryRule} {lefts rights : List Derivation}
    {d : Derivation} :
    d ∈ joins split rule lefts rights ↔
      ∃ left ∈ lefts, ∃ right ∈ rights, .node split rule left right = d := by
  simp only [joins, List.mem_flatMap, List.mem_map]

theorem mem_derivations_iff_root {policy : Policy} {input : List Symbol}
    {x : Symbol} {first last : Nat} {d : Derivation} :
    d ∈ derivations policy input x first last ↔
      d ∈ derivationsOver policy input first last ∧ d.root = x := by
  simp [derivations]

theorem leaf_mem_derivationsOver {policy : Policy} {input : List Symbol}
    {first last : Nat} {rule : TerminalRule} :
    .leaf rule ∈ derivationsOver policy input first last ↔
      rule ∈ policy.terminalRules input first last := by
  rw [derivationsOver]
  simp [mem_joins]

theorem node_mem_derivationsOver {policy : Policy} {input : List Symbol}
    {first last split : Nat} {rule : BinaryRule} {left right : Derivation} :
    .node split rule left right ∈ derivationsOver policy input first last ↔
      split < last - first ∧ rule ∈ policy.binaryRules first last split ∧
        left ∈ derivations policy input rule.left first (first + split) ∧
          right ∈ derivations policy input rule.right (first + split + 1) last := by
  rw [derivationsOver]
  simp only [List.mem_append, List.mem_map, List.mem_flatMap, List.mem_finRange,
    true_and, reduceCtorEq, and_false, exists_false, false_or, mem_joins]
  constructor
  · rintro ⟨k, r, hr, l, hl, t, ht, heq⟩
    injection heq with hk hr' hl' ht'
    subst hk hr' hl' ht'
    exact ⟨k.isLt, hr, hl, ht⟩
  · rintro ⟨hsplit, hr, hl, ht⟩
    exact ⟨⟨split, hsplit⟩, rule, hr, left, hl, right, ht, rfl⟩

theorem mem_derivations {policy : Policy} {input : List Symbol} {x : Symbol}
    {first last : Nat} {d : Derivation} :
    d ∈ derivations policy input x first last ↔
      Derives policy input x first last d := by
  induction d generalizing x first last with
  | leaf rule =>
      rw [mem_derivations_iff_root, leaf_mem_derivationsOver, derives_leaf_iff,
        and_comm]
      rfl
  | node split rule left right ihLeft ihRight =>
      rw [mem_derivations_iff_root, node_mem_derivationsOver, derives_node_iff,
        ihLeft, ihRight, and_comm]
      rfl

theorem mem_derivationsOver {policy : Policy} {input : List Symbol}
    {first last : Nat} {d : Derivation} :
    d ∈ derivationsOver policy input first last ↔
      Derives policy input d.root first last d := by
  rw [← mem_derivations, mem_derivations_iff_root]
  simp

theorem mem_completeDerivations {policy : Policy} {input : List Symbol}
    {d : Derivation} :
    d ∈ completeDerivations policy input ↔
      Derives policy input d.root 0 (input.length - 1) d :=
  mem_derivationsOver

theorem nodup_flatMap_of_unique {α β : Type} {entries : List α} {f : α → List β}
    (hentries : entries.Nodup) (hparts : ∀ a ∈ entries, (f a).Nodup)
    (hunique : ∀ a a' b, b ∈ f a → b ∈ f a' → a = a') :
    (entries.flatMap f).Nodup := by
  rw [List.nodup_flatMap]
  refine ⟨hparts, hentries.imp ?_⟩
  intro a a' hne b hb hb'
  exact hne (hunique a a' b hb hb')

theorem nodup_joins {split : Nat} {rule : BinaryRule} {lefts rights : List Derivation}
    (hlefts : lefts.Nodup) (hrights : rights.Nodup) :
    (joins split rule lefts rights).Nodup := by
  apply nodup_flatMap_of_unique hlefts
  · intro left _
    exact hrights.map fun _ _ h => (Derivation.node.inj h).2.2.2
  · intro left left' d hd hd'
    obtain ⟨right, _, rfl⟩ := List.mem_map.mp hd
    obtain ⟨right', _, heq⟩ := List.mem_map.mp hd'
    exact (Derivation.node.inj heq).2.2.1.symm

theorem derivationsOver_eq (policy : Policy) (input : List Symbol) (first last : Nat) :
    derivationsOver policy input first last =
      (policy.terminalRules input first last).map .leaf ++
        (List.range (last - first)).flatMap fun split =>
          (policy.binaryRules first last split).flatMap fun rule =>
            joins split rule (derivations policy input rule.left first (first + split))
              (derivations policy input rule.right (first + split + 1) last) := by
  rw [derivationsOver, ← List.map_coe_finRange_eq_range, List.flatMap_map]
  rfl

/-- Things that are listed by the rule at the top are listed once if the rules are and if
those over each rule are. -/
theorem nodup_leaves_append_nodes {α : Type} {leaves : List α} {width : Nat}
    {rules : Nat → List BinaryRule} {nodes : Nat → BinaryRule → List α}
    (top : α → Option (Nat × BinaryRule)) (hleaves : leaves.Nodup)
    (hleafTop : ∀ a ∈ leaves, top a = none)
    (hrules : ∀ split < width, (rules split).Nodup)
    (hnodes : ∀ split < width, ∀ rule, (nodes split rule).Nodup)
    (htop : ∀ split rule, ∀ a ∈ nodes split rule, top a = some (split, rule)) :
    (leaves ++ (List.range width).flatMap fun split =>
      (rules split).flatMap (nodes split)).Nodup := by
  rw [List.nodup_append]
  refine ⟨hleaves, ?_, ?_⟩
  · apply nodup_flatMap_of_unique List.nodup_range
    · intro split hsplit
      rw [List.mem_range] at hsplit
      apply nodup_flatMap_of_unique (hrules split hsplit)
      · intro rule _
        exact hnodes split hsplit rule
      · intro rule rule' a ha ha'
        have hsame := (htop split rule a ha).symm.trans (htop split rule' a ha')
        exact congrArg Prod.snd (Option.some.inj hsame)
    · intro split split' a ha ha'
      obtain ⟨rule, _, ha⟩ := List.mem_flatMap.mp ha
      obtain ⟨rule', _, ha'⟩ := List.mem_flatMap.mp ha'
      have hsame := (htop split rule a ha).symm.trans (htop split' rule' a ha')
      exact congrArg Prod.fst (Option.some.inj hsame)
  · intro a ha b hb hab
    subst hab
    obtain ⟨split, _, hb⟩ := List.mem_flatMap.mp hb
    obtain ⟨rule, _, hb⟩ := List.mem_flatMap.mp hb
    have hnone := htop split rule _ hb
    rw [hleafTop a ha] at hnone
    cases hnone

/-- The split and the rule of a node. -/
def Derivation.top? : Derivation → Option (Nat × BinaryRule)
  | leaf _ => none
  | node split rule _ _ => some (split, rule)

theorem nodup_leaves {rules : List TerminalRule} (hrules : rules.Nodup) :
    (rules.map Derivation.leaf).Nodup :=
  hrules.map fun _ _ => Derivation.leaf.inj

theorem top?_of_mem_leaves {rules : List TerminalRule} {d : Derivation}
    (hd : d ∈ rules.map Derivation.leaf) : d.top? = none := by
  obtain ⟨rule, _, rfl⟩ := List.mem_map.mp hd
  rfl

theorem top?_of_mem_joins {split : Nat} {rule : BinaryRule}
    {lefts rights : List Derivation} {d : Derivation}
    (hd : d ∈ joins split rule lefts rights) : d.top? = some (split, rule) := by
  obtain ⟨left, _, right, _, rfl⟩ := mem_joins.mp hd
  rfl

theorem nodup_derivationsOver {policy : Policy} (hpolicy : policy.Covering)
    (input : List Symbol) (first last : Nat) :
    (derivationsOver policy input first last).Nodup := by
  induction hwidth : last - first using Nat.strong_induction_on
    generalizing first last with
  | _ width ih =>
      rw [derivationsOver_eq]
      apply nodup_leaves_append_nodes Derivation.top?
        (nodup_leaves (hpolicy.terminal_nodup input first last))
        fun _ => top?_of_mem_leaves
      · intro split _
        exact hpolicy.binary_nodup first last split
      · intro split hsplit rule
        have hleft := ih split (by omega) first (first + split) (by omega)
        have hright := ih (last - (first + split + 1)) (by omega) (first + split + 1) last
          rfl
        exact nodup_joins (hleft.filter _) (hright.filter _)
      · intro split rule d hd
        exact top?_of_mem_joins hd

theorem isListing_derivations {policy : Policy} (hpolicy : policy.Covering)
    (input : List Symbol) (x : Symbol) (first last : Nat) :
    IsListing (derivations policy input x first last)
      (Derives policy input x first last) where
  nodup := (nodup_derivationsOver hpolicy input first last).filter _
  mem_iff := fun _ => mem_derivations

/-! ## Sums over derivations -/

section Sums

variable {K S : Type} [WeightAlgebra K S] [LawfulWeights K S]

attribute [local instance] LawfulWeights.semiring

def derivationSum (model : Model K) (input : List Symbol) (x : Symbol)
    (first last : Nat) : S :=
  ((derivations model.policy input x first last).map
    (Derivation.weight model)).sum

theorem sum_joins (model : Model K) (split : Nat) (rule : BinaryRule)
    (lefts rights : List Derivation) :
    ((joins split rule lefts rights).map (Derivation.weight model)).sum =
      (model.weigh (.binary rule) * (lefts.map (Derivation.weight model)).sum *
        (rights.map (Derivation.weight model)).sum : S) := by
  rw [joins, sum_flatMap, sum_mul_sum]
  simp only [List.map_map]
  rfl

/-- A sum over the derivations of a span in which every weight has a factor that
depends on the rule at the top. -/
theorem sum_derivationsOver (model : Model K) (input : List Symbol)
    (first last : Nat) (factor : Rule → S) :
    ((derivationsOver model.policy input first last).map fun d =>
        factor d.rule * d.weight model).sum =
      ((model.policy.terminalRules input first last).map fun rule =>
          factor (.terminal rule) * model.weigh (.terminal rule)).sum +
        ((List.range (last - first)).map fun split =>
          ((model.policy.binaryRules first last split).map fun rule =>
            factor (.binary rule) *
              (model.weigh (.binary rule) *
                derivationSum model input rule.left first (first + split) *
                  derivationSum model input rule.right (first + split + 1)
                    last)).sum).sum := by
  rw [derivationsOver, List.map_append, List.sum_append]
  congr 1
  · rw [List.map_map]
    rfl
  · rw [← List.map_coe_finRange_eq_range, sum_flatMap, List.map_map]
    congr 2
    funext split
    rw [sum_flatMap, Function.comp_apply]
    congr 2
    funext rule
    rw [derivationSum, derivationSum, ← sum_joins, ← List.sum_map_mul_left]
    congr 1
    apply List.map_congr_left
    intro d hd
    obtain ⟨left, _, right, _, rfl⟩ := mem_joins.mp hd
    rfl

theorem Derivation.root_eq_parent_rule (d : Derivation) : d.root = d.rule.parent := by
  cases d <;> rfl

theorem derivationSum_eq (model : Model K) (input : List Symbol) (x : Symbol)
    (first last : Nat) :
    (derivationSum model input x first last : S) =
      ((model.policy.terminalRules input first last).map fun rule =>
          if rule.parent = x then model.weigh (.terminal rule) else 0).sum +
        ((List.range (last - first)).map fun split =>
          ((model.policy.binaryRules first last split).map fun rule =>
            if rule.parent = x then
              model.weigh (.binary rule) *
                derivationSum model input rule.left first (first + split) *
                  derivationSum model input rule.right (first + split + 1) last
            else 0).sum).sum := by
  have hsum := sum_derivationsOver (S := S) model input first last
    fun rule => if rule.parent = x then 1 else 0
  simp only [ite_mul, one_mul, zero_mul] at hsum
  rw [derivationSum, derivations, sum_filter]
  simp only [decide_eq_true_eq, Derivation.root_eq_parent_rule]
  exact hsum

/-! ## Derivations of weights that do not cancel out -/

section ZeroSumFree

variable {p : S → Prop} (hp : ZeroSumFree p) {model : Model K}
  (hrules : ∀ rule, p (model.weigh rule))

include hp hrules

omit [LawfulWeights K S] in
theorem ZeroSumFree.weight (d : Derivation) : p (d.weight model) := by
  induction d with
  | leaf rule => exact hrules _
  | node split rule left right ihLeft ihRight =>
      exact hp.mul (hp.mul (hrules _) ihLeft) ihRight

theorem ZeroSumFree.derivationSum_ne_zero_iff {input : List Symbol} {x : Symbol}
    {first last : Nat} :
    derivationSum model input x first last ≠ (0 : S) ↔
      ∃ d, Derives model.policy input x first last d ∧ d.weight model ≠ (0 : S) := by
  unfold derivationSum
  simp only [hp.sum_ne_zero_iff fun d _ => hp.weight hrules d, mem_derivations]

end ZeroSumFree

end Sums

end WeightedParsing
