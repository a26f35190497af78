import WeightedParsing.Proofs.Derivation.Complete
import WeightedParsing.Proofs.Derivation.Tree
import WeightedParsing.Proofs.Weight.Monotone

/-!
# Derivations of a pruned policy

A policy that leaves rules out has some of the derivations of the other policy and no
others, with the same weights.  If it leaves binary rules out by a test of where they
are used, the derivations that remain are those whose nodes all pass the test.
-/

namespace WeightedParsing

/-- All rules that the first policy allows for spans of the input are allowed by the
other. -/
structure Policy.Prunes (policy other : Policy) (input : List Symbol) : Prop where
  binary : ∀ first last split, split < last - first → last < input.length →
    policy.binaryRules first last split ⊆ other.binaryRules first last split
  terminal : ∀ first last, first ≤ last → last < input.length →
    policy.terminalRules input first last ⊆ other.terminalRules input first last

section Prunes

variable {policy other : Policy} {input : List Symbol}

theorem Derives.of_prunes {x : Symbol} {first last : Nat} {d : Derivation}
    (h : Derives policy input x first last d) (hprunes : policy.Prunes other input)
    (hspan : first ≤ last) (hlast : last < input.length) :
    Derives other input x first last d := by
  induction h with
  | leaf hrule => exact .leaf (hprunes.terminal _ _ hspan hlast hrule)
  | node hsplit hrule _ _ ihLeft ihRight =>
      exact .node hsplit (hprunes.binary _ _ _ hsplit hlast hrule)
        (ihLeft (by omega) (by omega)) (ihRight (by omega) hlast)

theorem derivations_subset_of_prunes (hprunes : policy.Prunes other input) (x : Symbol)
    {first last : Nat} (hspan : first ≤ last) (hlast : last < input.length) :
    derivations policy input x first last ⊆ derivations other input x first last := by
  intro d hd
  rw [mem_derivations] at hd ⊢
  exact hd.of_prunes hprunes hspan hlast

theorem completeDerivations_subset_of_prunes (hprunes : policy.Prunes other input)
    (hinput : input ≠ []) :
    completeDerivations policy input ⊆ completeDerivations other input := by
  have hlength : 0 < input.length := List.length_pos_iff.mpr hinput
  intro d hd
  rw [mem_completeDerivations] at hd ⊢
  exact hd.of_prunes hprunes (Nat.zero_le _) (by omega)

end Prunes

/-! ## Weights -/

section Weights

variable {K S : Type} [WeightAlgebra K S] {model other : Model K}

/-- Derivations weigh the same wherever rules do. -/
theorem Derivation.weight_congr (hweight : model.ruleWeight = other.ruleWeight)
    (d : Derivation) : d.weight model = (d.weight other : S) := by
  induction d with
  | leaf rule => simp only [weight, Model.weigh, hweight]
  | node split rule left right ihLeft ihRight =>
      simp only [weight, Model.weigh, hweight, ihLeft, ihRight]

theorem Derivation.tree_congr (hweight : model.ruleWeight = other.ruleWeight)
    (d : Derivation) (first last : Nat) :
    d.tree model first last = (d.tree other first last : ParseTree S) := by
  induction d generalizing first last with
  | leaf rule => simp only [tree, Model.weigh, hweight]
  | node split rule left right ihLeft ihRight =>
      simp only [tree, Model.weigh, hweight, ihLeft, ihRight]

variable [OrderedWeights K S]

theorem Derivation.zero_le_weight
    (hrules : ∀ rule, Ranked.le 0 (model.weigh rule : S) = true) (d : Derivation) :
    Ranked.le 0 (d.weight model : S) = true :=
  ZeroSumFree.zero_le.weight hrules d

theorem derivationSum_le_of_prunes (hweight : model.ruleWeight = other.ruleWeight)
    (hrules : ∀ rule, Ranked.le 0 (other.weigh rule : S) = true)
    (hpolicy : model.policy.Covering) {input : List Symbol}
    (hprunes : model.policy.Prunes other.policy input) (x : Symbol) {first last : Nat}
    (hspan : first ≤ last) (hlast : last < input.length) :
    Ranked.le (derivationSum model input x first last : S)
      (derivationSum other input x first last) = true := by
  rw [derivationSum, derivationSum,
    List.map_congr_left fun d _ => d.weight_congr (S := S) hweight]
  apply sum_le_sum_of_subperm
  · exact List.subperm_of_subset (isListing_derivations hpolicy _ _ _ _).nodup
      (derivations_subset_of_prunes hprunes x hspan hlast)
  · intro d _
    exact d.zero_le_weight hrules

end Weights

/-! ## Leaving binary rules out -/

/-- Every node of a derivation over a span passes a test of its own span, its split and
its rule. -/
def Derivation.keeps (keep : (first last split : Nat) → BinaryRule → Bool) :
    Derivation → (first last : Nat) → Bool
  | leaf _, _, _ => true
  | node split rule left right, first, last =>
      keep first last split rule && left.keeps keep first (first + split) &&
        right.keeps keep (first + split + 1) last

theorem flatMap_filter {α β : Type} (entries : List α) (p : α → Bool) (f : α → List β) :
    (entries.filter p).flatMap f = entries.flatMap fun a => if p a then f a else [] := by
  induction entries with
  | nil => rfl
  | cons a rest ih =>
      rw [List.flatMap_cons, ← ih, List.filter_cons]
      by_cases hp : p a = true
      · simp [hp]
      · simp [hp]

section Restrict

variable {keep : (first last split : Nat) → BinaryRule → Bool} {policy : Policy}
  {input : List Symbol}

theorem Policy.restrict_prunes (keep : (first last split : Nat) → BinaryRule → Bool)
    (policy : Policy) (input : List Symbol) :
    (policy.restrict keep).Prunes policy input where
  binary := fun _ _ _ _ _ => List.filter_subset_self _
  terminal := fun _ _ _ _ => List.Subset.refl _

theorem derives_restrict_iff {x : Symbol} {first last : Nat} {d : Derivation} :
    Derives (policy.restrict keep) input x first last d ↔
      Derives policy input x first last d ∧ d.keeps keep first last = true := by
  induction d generalizing x first last with
  | leaf rule =>
      rw [derives_leaf_iff, derives_leaf_iff]
      simp [Policy.restrict, Derivation.keeps]
  | node split rule left right ihLeft ihRight =>
      rw [derives_node_iff, derives_node_iff, ihLeft, ihRight]
      simp only [Policy.restrict, List.mem_filter, Derivation.keeps, Bool.and_eq_true]
      tauto

/-- The test of a node passes over into the lists of its subtrees. -/
theorem filter_keeps_joins (first last split : Nat) (rule : BinaryRule)
    (lefts rights : List Derivation) :
    (joins split rule lefts rights).filter (fun d => d.keeps keep first last) =
      if keep first last split rule then
        joins split rule (lefts.filter fun left => left.keeps keep first (first + split))
          (rights.filter fun right => right.keeps keep (first + split + 1) last)
      else [] := by
  unfold joins
  rw [List.filter_flatMap]
  by_cases hkeep : keep first last split rule = true
  · rw [if_pos hkeep]
    induction lefts with
    | nil => rfl
    | cons left rest ih =>
        rw [List.flatMap_cons, ih, List.filter_map, List.filter_cons]
        by_cases hleft : left.keeps keep first (first + split) = true
        · simp [hleft, hkeep, Function.comp_def, Derivation.keeps]
        · simp [hleft, Function.comp_def, Derivation.keeps]
  · rw [if_neg hkeep, List.flatMap_eq_nil_iff]
    intro left _
    simp [Derivation.keeps, hkeep]

theorem derivationsOver_restrict (first last : Nat) :
    derivationsOver (policy.restrict keep) input first last =
      (derivationsOver policy input first last).filter
        fun d => d.keeps keep first last := by
  induction hwidth : last - first using Nat.strong_induction_on
    generalizing first last with
  | _ width ih =>
      rw [derivationsOver_eq, derivationsOver_eq, List.filter_append,
        List.filter_flatMap]
      congr 1
      · simp [Policy.restrict, List.filter_map, Function.comp_def, Derivation.keeps]
      · apply List.flatMap_congr
        intro split hsplit
        rw [List.mem_range] at hsplit
        have hnarrower : ∀ (x : Symbol) (s e : Nat), e - s < last - first →
            derivations (policy.restrict keep) input x s e =
              (derivations policy input x s e).filter fun d => d.keeps keep s e := by
          intro x s e hlt
          rw [derivations, ih (e - s) (by omega) s e rfl, List.filter_comm]
          rfl
        have hleft := fun x => hnarrower x first (first + split) (by omega)
        have hright := fun x => hnarrower x (first + split + 1) last (by omega)
        simp only [hleft, hright, List.filter_flatMap, filter_keeps_joins]
        exact flatMap_filter _ _ _

theorem derivations_restrict (x : Symbol) (first last : Nat) :
    derivations (policy.restrict keep) input x first last =
      (derivations policy input x first last).filter
        fun d => d.keeps keep first last := by
  rw [derivations, derivationsOver_restrict, List.filter_comm]
  rfl

theorem completeDerivations_restrict :
    completeDerivations (policy.restrict keep) input =
      (completeDerivations policy input).filter
        fun d => d.keeps keep 0 (input.length - 1) :=
  derivationsOver_restrict 0 (input.length - 1)

theorem derivationsWith_restrict (x : Symbol) (first last : Nat) :
    derivationsWith (policy.restrict keep) input x first last =
      (derivationsWith policy input x first last).filter
        fun d => d.keeps keep 0 (input.length - 1) := by
  rw [derivationsWith, completeDerivations_restrict, List.filter_comm]
  rfl

theorem occurrences_restrict (rule : Rule) :
    occurrences (policy.restrict keep) input rule =
      (occurrences policy input rule).filter
        fun d => d.keeps keep 0 (input.length - 1) := by
  unfold occurrences
  rw [completeDerivations_restrict, List.filter_flatMap, flatMap_filter]
  simp only [List.filter_replicate]

attribute [local instance] LawfulWeights.semiring

theorem sum_filter_of_kept {K S : Type} [WeightAlgebra K S] [LawfulWeights K S]
    {entries : List Derivation} {p : Derivation → Bool} {f : Derivation → S}
    (hfail : ∀ d ∈ entries, p d = false → f d = 0) :
    ((entries.filter p).map f).sum = (entries.map f).sum := by
  rw [sum_filter]
  congr 1
  apply List.map_congr_left
  intro d hd
  cases hp : p d with
  | true => rfl
  | false => exact (hfail d hd hp).symm

theorem derivationSum_restrict {K S : Type} [WeightAlgebra K S] [LawfulWeights K S]
    {model : Model K} {x : Symbol} {first last : Nat}
    (hkept : ∀ d, Derives model.policy input x first last d →
      d.weight model ≠ (0 : S) → d.keeps keep first last = true) :
    derivationSum ⟨model.policy.restrict keep, model.ruleWeight⟩ input x first last =
      (derivationSum model input x first last : S) := by
  let pruned : Model K := ⟨model.policy.restrict keep, model.ruleWeight⟩
  have hsame : pruned.ruleWeight = model.ruleWeight := rfl
  have hweight : Derivation.weight pruned = (Derivation.weight model : Derivation → S) :=
    funext fun d => d.weight_congr hsame
  rw [derivationSum, derivationSum, derivations_restrict, hweight]
  apply sum_filter_of_kept
  intro d hd hfail
  by_contra hne
  rw [hkept d (mem_derivations.mp hd) hne] at hfail
  cases hfail

end Restrict

end WeightedParsing
