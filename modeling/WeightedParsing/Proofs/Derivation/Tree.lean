import Mathlib.Algebra.BigOperators.Ring.List
import WeightedParsing.ParseTree
import WeightedParsing.Proofs.Derivation.Basic
import WeightedParsing.Proofs.Selection
import WeightedParsing.Proofs.Weight.Selective

/-!
# Trees of derivations

A derivation over a span is written down as a tree in which every part has its
weight.  Nothing is lost: the split of a node is where its left subtree ends, and the
children of its rule are the roots of its subtrees.
-/

namespace WeightedParsing

variable {K S : Type} [WeightAlgebra K S]

/-- The tree that spells a derivation out over a span. -/
def Derivation.tree (model : Model K) : Derivation → (first last : Nat) → ParseTree S
  | leaf rule, first, last => .leaf rule (model.weigh (.terminal rule)) first last
  | node split rule left right, first, last =>
      .join rule (model.weigh (.binary rule)) (left.tree model first (first + split))
        (right.tree model (first + split + 1) last)

namespace Derivation

@[simp] theorem weight_tree (model : Model K) (d : Derivation) (first last : Nat) :
    (d.tree model first last : ParseTree S).weight = d.weight model := by
  induction d generalizing first last with
  | leaf rule => rfl
  | node split rule left right ihLeft ihRight =>
      rw [tree, ParseTree.join, ParseTree.weight, ihLeft, ihRight, weight]

@[simp] theorem root_tree (model : Model K) (d : Derivation) (first last : Nat) :
    (d.tree model first last : ParseTree S).root = d.root := by
  cases d <;> rfl

@[simp] theorem first_tree (model : Model K) (d : Derivation) (first last : Nat) :
    (d.tree model first last : ParseTree S).first = first := by
  induction d generalizing first last with
  | leaf rule => rfl
  | node split rule left right ihLeft ihRight => exact ihLeft first (first + split)

@[simp] theorem last_tree (model : Model K) (d : Derivation) (first last : Nat) :
    (d.tree model first last : ParseTree S).last = last := by
  induction d generalizing first last with
  | leaf rule => rfl
  | node split rule left right ihLeft ihRight =>
      exact ihRight (first + split + 1) last

end Derivation

/-- The derivation that a tree spells out.  The split of a node is where its left child
ends, and the children of its rule are the roots of its own. -/
def ParseTree.derivation : ParseTree S → Derivation
  | leaf rule _ _ _ => .leaf rule
  | node parent ruleType left right _ =>
      .node (left.last - left.first)
        { parent, left := left.root, right := right.root, ruleType }
        left.derivation right.derivation

theorem Derives.derivation_tree {policy : Policy} {input : List Symbol} {x : Symbol}
    {first last : Nat} {d : Derivation} (model : Model K)
    (h : Derives policy input x first last d) :
    (d.tree model first last : ParseTree S).derivation = d := by
  induction h with
  | leaf hrule => rfl
  | node hsplit hrule hleft hright ihLeft ihRight =>
      rw [Derivation.tree, ParseTree.join, ParseTree.derivation, ihLeft, ihRight]
      simp [hleft.root_eq, hright.root_eq]

theorem Derives.eq_of_tree_eq {policy : Policy} {input : List Symbol} {x x' : Symbol}
    {first last : Nat} {d d' : Derivation} (model : Model K)
    (h : Derives policy input x first last d)
    (h' : Derives policy input x' first last d')
    (heq : (d.tree model first last : ParseTree S) = d'.tree model first last) :
    d = d' := by
  rw [← h.derivation_tree (S := S) model, heq, h'.derivation_tree]

theorem nodup_map_tree {policy : Policy} {input : List Symbol} {x : Symbol}
    {first last : Nat} {entries : List Derivation} (model : Model K)
    (hnodup : entries.Nodup) (h : ∀ d ∈ entries, Derives policy input x first last d) :
    (entries.map fun d => (d.tree model first last : ParseTree S)).Nodup := by
  apply hnodup.map_on
  intro d hd d' hd' heq
  exact (h d hd).eq_of_tree_eq model (h d' hd') heq

/-! ## Trees with a factor at the root -/

namespace ParseTree

variable (factor : S) (tree : ParseTree S)

@[simp] theorem weight_multiply : (tree.multiply factor).weight = tree.weight * factor := by
  cases tree <;> rfl

@[simp] theorem root_multiply : (tree.multiply factor).root = tree.root := by
  cases tree <;> rfl

@[simp] theorem first_multiply : (tree.multiply factor).first = tree.first := by
  cases tree <;> rfl

@[simp] theorem last_multiply : (tree.multiply factor).last = tree.last := by
  cases tree <;> rfl

theorem derivation_multiply : (tree.multiply factor).derivation = tree.derivation := by
  cases tree <;> rfl

/-- The factor is at the root alone, so that no proper subtree sees it. -/
theorem subtree?_multiply_cons (turn : Turn) (path : List Turn) :
    (tree.multiply factor).subtree? (turn :: path) = tree.subtree? (turn :: path) := by
  cases tree <;> cases turn <;> rfl

end ParseTree

/-! ## Derivations that have weight -/

def Derivation.hasWeight (S : Type) [WeightAlgebra K S] (model : Model K)
    (d : Derivation) : Bool :=
  !WeightAlgebra.isZero (d.weight model : S)

def nonzeroDerivations (S : Type) [WeightAlgebra K S] (model : Model K)
    (input : List Symbol) (x : Symbol) (first last : Nat) : List Derivation :=
  (derivations model.policy input x first last).filter (Derivation.hasWeight S model)

section Nonzero

variable [LawfulWeights K S]

theorem Derivation.hasWeight_iff {model : Model K} {d : Derivation} :
    d.hasWeight S model = true ↔ (d.weight model : S) ≠ 0 := by
  rw [hasWeight, Bool.not_eq_true', ← Bool.not_eq_true, isZero_eq_true_iff]

theorem isListing_nonzeroDerivations {model : Model K} (hpolicy : model.policy.Covering)
    (input : List Symbol) (x : Symbol) (first last : Nat) :
    IsListing (nonzeroDerivations S model input x first last) fun d =>
      Derives model.policy input x first last d ∧ (d.weight model : S) ≠ 0 where
  nodup := (isListing_derivations hpolicy input x first last).nodup.filter _
  mem_iff := by
    intro d
    rw [nonzeroDerivations, List.mem_filter, mem_derivations,
      Derivation.hasWeight_iff]

attribute [local instance] LawfulWeights.semiring

theorem sum_nonzeroDerivations (model : Model K) (input : List Symbol) (x : Symbol)
    (first last : Nat) :
    ((nonzeroDerivations S model input x first last).map
        (Derivation.weight model)).sum =
      (derivationSum model input x first last : S) := by
  rw [nonzeroDerivations, sum_filter, derivationSum]
  congr 1
  apply List.map_congr_left
  intro d _
  split
  · rfl
  · rename_i hweight
    rw [Derivation.hasWeight_iff, not_not] at hweight
    exact hweight.symm

end Nonzero

section Integral

variable [IntegralWeights K S]

attribute [local instance] LawfulWeights.semiring

theorem Derivation.hasWeight_node {model : Model K} {split : Nat} {rule : BinaryRule}
    (hrule : (model.weigh (.binary rule) : S) ≠ 0) (left right : Derivation) :
    (node split rule left right).hasWeight S model =
      (left.hasWeight S model && right.hasWeight S model) := by
  rw [Bool.eq_iff_iff, Bool.and_eq_true, hasWeight_iff, hasWeight_iff, hasWeight_iff]
  constructor
  · intro hweight
    rw [weight] at hweight
    exact ⟨right_ne_zero_of_mul (left_ne_zero_of_mul hweight),
      right_ne_zero_of_mul hweight⟩
  · rintro ⟨hleft, hright⟩
    exact mul_ne_zero_of (mul_ne_zero_of hrule hleft) hright

theorem filter_joins (model : Model K) {split : Nat} {rule : BinaryRule}
    (hrule : (model.weigh (.binary rule) : S) ≠ 0) (lefts rights : List Derivation) :
    (joins split rule lefts rights).filter (Derivation.hasWeight S model) =
      joins split rule (lefts.filter (Derivation.hasWeight S model))
        (rights.filter (Derivation.hasWeight S model)) := by
  unfold joins
  induction lefts with
  | nil => rfl
  | cons left rest ih =>
      rw [List.flatMap_cons, List.filter_append, ih, List.filter_map,
        List.filter_cons]
      by_cases hleft : left.hasWeight S model = true
      · simp [hleft, Function.comp_def, Derivation.hasWeight_node hrule]
      · simp [hleft, Function.comp_def, Derivation.hasWeight_node hrule]

end Integral

section Selective

variable [SelectiveWeights K S]

attribute [local instance] LawfulWeights.semiring

theorem filter_joins_eq_nil {model : Model K} {split : Nat} {rule : BinaryRule}
    {lefts rights : List Derivation}
    (hzero : model.weigh (.binary rule) *
      (lefts.map (Derivation.weight (S := S) model)).sum *
        (rights.map (Derivation.weight model)).sum = 0) :
    (joins split rule lefts rights).filter (Derivation.hasWeight S model) = [] := by
  rw [← sum_joins model split] at hzero
  rw [List.filter_eq_nil_iff]
  intro d hd
  rw [Derivation.hasWeight_iff, not_not]
  exact eq_zero_of_sum_eq_zero hzero hd

/-- Parts that suffice for either side of a rule suffice for its joins. -/
theorem Suffices.joins (model : Model K) {count split : Nat} {rule : BinaryRule}
    {lefts allLefts rights allRights : List Derivation}
    (hlefts : Suffices (Derivation.weight (S := S) model) count lefts allLefts)
    (hrights : Suffices (Derivation.weight (S := S) model) count rights allRights) :
    Suffices (Derivation.weight (S := S) model) count
      (joins split rule lefts rights) (joins split rule allLefts allRights) := by
  have hright : Suffices (Derivation.weight (S := S) model) count
      (WeightedParsing.joins split rule lefts rights)
      (WeightedParsing.joins split rule lefts allRights) := by
    apply Suffices.flatMap
    intro left _
    apply hrights.map
    intro a _ b _ hab
    exact SelectiveWeights.mul_le_mul_left _ hab
  have hleft : Suffices (Derivation.weight (S := S) model) count
      (WeightedParsing.joins split rule lefts allRights)
      (WeightedParsing.joins split rule allLefts allRights) := by
    obtain ⟨dropped, hperm, hcount⟩ := hlefts
    apply Suffices.flatMap_left hperm
    intro d hd b hb
    obtain ⟨right, hmem, rfl⟩ := List.mem_map.mp hb
    refine ⟨_, hcount d hd, ?_⟩
    intro a _ hda
    refine ⟨_, List.mem_map_of_mem hmem, ?_⟩
    exact SelectiveWeights.mul_le_mul_right _ (SelectiveWeights.mul_le_mul_left _ hda)
  exact hright.trans hleft

end Selective

end WeightedParsing
