import Mathlib.Algebra.BigOperators.Ring.List
import WeightedParsing.Chart.Basic
import WeightedParsing.Proofs.Chart.SpanTable
import WeightedParsing.Proofs.Derivation.Basic
import WeightedParsing.Proofs.Weight.Exact
import WeightedParsing.Proofs.Weight.Tables

/-!
# Inside weights as sums over derivations

A finished inside pass satisfies, at every span, the equation that its cells are
computed by: the weight of a symbol sums the terminal rules for the span and, at
every split, the binary rules over the weights of their children.  The summed
weight of all derivations satisfies the same equation, and the two agree by
induction on the width of the span.  What the pass leaves out weighs nothing.
-/

namespace WeightedParsing

variable {K S : Type} [WeightAlgebra K S]

theorem InsideCell.weights_ofBackpointers (width : Nat) (width_pos : 0 < width)
    (backs : List (Backpointer S)) :
    (ofBackpointers width width_pos backs).weights =
      .ofList (backs.map fun back => (back.rule.parent, back.derivationWeight)) := by
  have hfold : ∀ cell : InsideCell S,
      (backs.foldl (add width width_pos) cell).weights =
        cell.weights.combineAll
          (backs.map fun back => (back.rule.parent, back.derivationWeight)) := by
    induction backs with
    | nil => intro cell; rfl
    | cons back rest ih =>
        intro cell
        rw [List.foldl_cons, ih]
        rfl
  exact hfold .empty

theorem insideBackpointers_congr (model : Model K) (input : List Symbol)
    {first last : Nat} (hlast : last < input.length)
    {inside inside' : (first last : Nat) → SymbolWeights S}
    (h : ∀ s e, s ≤ e → e < input.length → e - s < last - first →
      inside s e = inside' s e) :
    insideBackpointers model input inside first last =
      insideBackpointers model input inside' first last := by
  unfold insideBackpointers binaryBackpointers
  congr 1
  apply List.flatMap_congr
  intro split hsplit
  rw [List.mem_range] at hsplit
  have hleft : inside first (first + split) = inside' first (first + split) :=
    h _ _ (by omega) (by omega) (by omega)
  have hright : inside (first + split + 1) last = inside' (first + split + 1) last :=
    h _ _ (by omega) (by omega) (by omega)
  simp only [hleft, hright]

@[simp] theorem InsidePass.size_cells_run (model : Model K) (width : Nat)
    (width_pos : 0 < width) (input : List Symbol) :
    (run model width width_pos input : InsidePass S).cells.size = input.length :=
  SpanTable.size_sweep _

/-- Every cell of a finished inside pass holds the ways to build its span from
the cells of the same pass. -/
theorem InsidePass.get_cells_run (model : Model K) (width : Nat)
    (width_pos : 0 < width) (input : List Symbol) {first last : Nat}
    (hspan : first ≤ last) (hlast : last < input.length) :
    (run model width width_pos input : InsidePass S).cells.get first last =
      .ofBackpointers width width_pos
        (insideBackpointers model input (run model width width_pos input).inside
          first last) := by
  change (insideCells model width width_pos input).get first last = _
  unfold insideCells
  rw [SpanTable.get_sweep_widening hspan hlast]
  · rfl
  · intro look look' hlook
    congr 1
    apply insideBackpointers_congr model input hlast
    intro s e hse he hlt
    rw [hlook s e hse he hlt]

theorem InsidePass.inside_run (model : Model K) (width : Nat)
    (width_pos : 0 < width) (input : List Symbol) {first last : Nat}
    (hspan : first ≤ last) (hlast : last < input.length) :
    (run model width width_pos input : InsidePass S).inside first last =
      .ofList ((insideBackpointers model input
        (run model width width_pos input).inside first last).map fun back =>
          (back.rule.parent, back.derivationWeight)) := by
  unfold inside
  rw [get_cells_run model width width_pos input hspan hlast,
    InsideCell.weights_ofBackpointers]
  rfl

section Sums

attribute [local instance] LawfulWeights.semiring

variable [LawfulWeights K S]

theorem mem_terminalBackpointers {model : Model K} {input : List Symbol}
    {first last : Nat} {back : Backpointer S} :
    back ∈ terminalBackpointers model input first last ↔
      ∃ rule ∈ model.policy.lexicalRules input first last,
        (model.weigh (.terminal rule) : S) ≠ 0 ∧
          back = ⟨0, .terminal rule, model.weigh (.terminal rule),
            model.weigh (.terminal rule)⟩ :=
  mem_filterMap_of_weight

theorem binaryBackpointer?_eq_some_iff {model : Model K} {left right : SymbolWeights S}
    {split : Nat} {rule : BinaryRule} {back : Backpointer S} :
    binaryBackpointer? model left right split rule = some back ↔
      model.weigh (.binary rule) * left.get rule.left * right.get rule.right ≠ 0 ∧
        back = ⟨split, .binary rule,
          model.weigh (.binary rule) * left.get rule.left * right.get rule.right,
          model.weigh (.binary rule)⟩ := by
  unfold binaryBackpointer?
  by_cases hleft : left.get rule.left = 0
  · simp [hleft]
  by_cases hright : right.get rule.right = 0
  · simp [hright]
  by_cases hweight :
      model.weigh (.binary rule) * left.get rule.left * right.get rule.right = 0
  · simp [hweight]
  · rw [if_neg (by simpa using hleft), if_neg (by simpa using hright),
      if_neg (by simpa using hweight), Option.some.injEq]
    exact ⟨fun h => ⟨hweight, h.symm⟩, fun h => h.2.symm⟩

theorem binaryBackpointer?_eq_none_iff {model : Model K} {left right : SymbolWeights S}
    {split : Nat} {rule : BinaryRule} :
    binaryBackpointer? model left right split rule = none ↔
      model.weigh (.binary rule) * left.get rule.left * right.get rule.right = 0 := by
  rw [← not_iff_not, ← ne_eq, Option.ne_none_iff_exists']
  constructor
  · rintro ⟨back, hback⟩
    exact (binaryBackpointer?_eq_some_iff.mp hback).1
  · intro hweight
    exact ⟨_, binaryBackpointer?_eq_some_iff.mpr ⟨hweight, rfl⟩⟩

theorem mem_binaryBackpointers {model : Model K}
    {inside : (first last : Nat) → SymbolWeights S} {first last : Nat}
    {back : Backpointer S} :
    back ∈ binaryBackpointers model inside first last ↔
      ∃ split < last - first, ∃ rule ∈ model.policy.binaryRules first last split,
        model.weigh (.binary rule) * (inside first (first + split)).get rule.left *
            (inside (first + split + 1) last).get rule.right ≠ 0 ∧
          back = ⟨split, .binary rule,
            model.weigh (.binary rule) * (inside first (first + split)).get rule.left *
              (inside (first + split + 1) last).get rule.right,
            model.weigh (.binary rule)⟩ := by
  unfold binaryBackpointers
  simp only [List.mem_flatMap, List.mem_range, List.mem_filterMap,
    binaryBackpointer?_eq_some_iff]

theorem mem_insideBackpointers {model : Model K} {input : List Symbol}
    {inside : (first last : Nat) → SymbolWeights S} {first last : Nat}
    {back : Backpointer S} :
    back ∈ insideBackpointers model input inside first last ↔
      (∃ rule ∈ model.policy.lexicalRules input first last,
        (model.weigh (.terminal rule) : S) ≠ 0 ∧
          back = ⟨0, .terminal rule, model.weigh (.terminal rule),
            model.weigh (.terminal rule)⟩) ∨
      ∃ split < last - first, ∃ rule ∈ model.policy.binaryRules first last split,
        model.weigh (.binary rule) * (inside first (first + split)).get rule.left *
            (inside (first + split + 1) last).get rule.right ≠ 0 ∧
          back = ⟨split, .binary rule,
            model.weigh (.binary rule) * (inside first (first + split)).get rule.left *
              (inside (first + split + 1) last).get rule.right,
            model.weigh (.binary rule)⟩ := by
  rw [insideBackpointers, List.mem_append, mem_terminalBackpointers,
    mem_binaryBackpointers]

theorem sum_terminalBackpointers (model : Model K) (input : List Symbol)
    (first last : Nat) (x : Symbol) :
    ((terminalBackpointers model input first last).map fun back : Backpointer S =>
        if back.rule.parent = x then back.derivationWeight else 0).sum =
      ((model.policy.lexicalRules input first last).map fun rule =>
        if rule.parent = x then model.weigh (.terminal rule) else 0).sum := by
  unfold terminalBackpointers
  rw [sum_filterMap]
  congr 2
  funext rule
  by_cases hzero : (model.weigh (.terminal rule) : S) = 0
  · simp [hzero]
  · rw [if_neg (by simpa using hzero)]
    rfl

theorem weight_binaryBackpointer? (model : Model K) (left right : SymbolWeights S)
    (split : Nat) (rule : BinaryRule) (x : Symbol) :
    ((binaryBackpointer? model left right split rule).map fun back =>
        if back.rule.parent = x then back.derivationWeight else 0).getD 0 =
      if rule.parent = x then
        model.weigh (.binary rule) * left.get rule.left * right.get rule.right
      else 0 := by
  cases hback : binaryBackpointer? model left right split rule with
  | none =>
      rw [binaryBackpointer?_eq_none_iff.mp hback, ite_self]
      rfl
  | some back =>
      obtain ⟨_, rfl⟩ := binaryBackpointer?_eq_some_iff.mp hback
      rfl

theorem sum_binaryBackpointers (model : Model K)
    (inside : (first last : Nat) → SymbolWeights S) (first last : Nat) (x : Symbol) :
    ((binaryBackpointers model inside first last).map fun back =>
        if back.rule.parent = x then back.derivationWeight else 0).sum =
      ((List.range (last - first)).map fun split =>
        ((model.policy.binaryRules first last split).map fun rule =>
          if rule.parent = x then
            model.weigh (.binary rule) *
              (inside first (first + split)).get rule.left *
                (inside (first + split + 1) last).get rule.right
          else 0).sum).sum := by
  unfold binaryBackpointers
  rw [sum_flatMap]
  congr 2
  funext split
  rw [sum_filterMap]
  congr 2
  funext rule
  exact weight_binaryBackpointer? model _ _ split rule x

theorem InsidePass.get_inside_run (model : Model K) (hpolicy : model.policy.Covering)
    (width : Nat) (width_pos : 0 < width) (input : List Symbol) {first last : Nat}
    (hspan : first ≤ last) (hlast : last < input.length) (x : Symbol) :
    ((run model width width_pos input : InsidePass S).inside first last).get x =
      ((model.policy.terminalRules input first last).map fun rule =>
          if rule.parent = x then model.weigh (.terminal rule) else 0).sum +
        ((List.range (last - first)).map fun split =>
          ((model.policy.binaryRules first last split).map fun rule =>
            if rule.parent = x then
              model.weigh (.binary rule) *
                ((run model width width_pos input).inside first
                  (first + split)).get rule.left *
                  ((run model width width_pos input).inside (first + split + 1)
                    last).get rule.right
            else 0).sum).sum := by
  rw [inside_run model width width_pos input hspan hlast, SymbolWeights.get_ofList,
    List.map_map, insideBackpointers, List.map_append, List.sum_append]
  simp only [Function.comp_def]
  rw [sum_terminalBackpointers, sum_binaryBackpointers,
    hpolicy.lexicalRules_eq hspan hlast]

theorem InsidePass.get_inside_run_eq_derivationSum (model : Model K)
    (hpolicy : model.policy.Covering) (width : Nat) (width_pos : 0 < width)
    (input : List Symbol) {first last : Nat} (hspan : first ≤ last)
    (hlast : last < input.length) (x : Symbol) :
    ((run model width width_pos input : InsidePass S).inside first last).get x =
      derivationSum model input x first last := by
  induction hwidth : last - first using Nat.strong_induction_on
    generalizing first last x with
  | _ w ih =>
      rw [get_inside_run model hpolicy width width_pos input hspan hlast,
        derivationSum_eq]
      congr 2
      apply List.map_congr_left
      intro split hsplit
      rw [List.mem_range] at hsplit
      congr 2
      funext rule
      rw [ih split (by omega) (by omega) (by omega) rule.left (by omega),
        ih (last - (first + split + 1)) (by omega) (by omega) hlast rule.right rfl]

end Sums

/-! ## Reading a filled chart -/

namespace Chart

theorem checkSpan_of_le {length first last : Nat} (hspan : first ≤ last)
    (hlast : last < length) : checkSpan length first last = .ok () :=
  if_pos ⟨hspan, hlast⟩

/-- A reading answers if its span lies within the chart. -/
theorem answer_of_le {α : Type} {length first last : Nat} (hspan : first ≤ last)
    (hlast : last < length) (a : α) :
    (do
      checkSpan length first last
      return a : Except ChartError α) = .ok a := by
  rw [checkSpan_of_le hspan hlast]
  rfl

theorem fillInside_blank (model : Model K) (width : Nat) (width_pos : 0 < width)
    {input : List Symbol} (hinput : input ≠ []) :
    (blank input.length width width_pos : Chart S).fillInside model input =
      .ok ⟨input.length, width, width_pos,
        .insideDone (.run model width width_pos input)⟩ := by
  simp [fillInside, blank, hinput]

/-- A fresh chart takes every nonempty input of its length.  Then each inside
weight is the sum over all derivations of its constituent. -/
theorem inside_eq_sum_derivations [LawfulWeights K S] (model : Model K)
    (hpolicy : model.policy.Lawful) (width : Nat) (width_pos : 0 < width)
    (input : List Symbol) (hinput : input ≠ []) :
    ∃ chart : Chart S,
      (blank input.length width width_pos).fillInside model input = .ok chart ∧
        ∀ first last, first ≤ last → last < input.length →
          ∃ weights, chart.inside first last = .ok weights ∧
            ∀ x,
              IsListing (derivations model.policy input x first last)
                  (Derives model.policy input x first last) ∧
                weights.get x =
                  ((derivations model.policy input x first last).map
                    (Derivation.weight model)).sum := by
  refine ⟨_, fillInside_blank model width width_pos hinput, ?_⟩
  intro first last hspan hlast
  refine ⟨(InsidePass.run model width width_pos input).inside first last, ?_, ?_⟩
  · change (do checkSpan input.length first last; pure _) = _
    rw [checkSpan_of_le hspan hlast]
    rfl
  · intro x
    exact ⟨isListing_derivations hpolicy input x first last,
      InsidePass.get_inside_run_eq_derivationSum model hpolicy width width_pos input
        hspan hlast x⟩

/-- Over natural numbers an inside weight counts: four words combine in five
ways. -/
theorem inside_eq_sum_derivations_four_words :
    ∃ chart : Chart (SumProduct Nat),
      (blank 4 1 Nat.one_pos).fillInside
          ⟨Policy.scan [⟨⟨0⟩, ⟨0⟩, ⟨0⟩, none⟩] [⟨⟨0⟩, [⟨1⟩], none⟩], fun _ => 1⟩
          [⟨1⟩, ⟨1⟩, ⟨1⟩, ⟨1⟩] = .ok chart ∧
        ∃ weights, chart.inside 0 3 = .ok weights ∧
          (weights.get ⟨0⟩).value = 5 := by
  obtain ⟨chart, hfill, hsums⟩ :=
    inside_eq_sum_derivations (S := SumProduct Nat)
      ⟨Policy.scan [⟨⟨0⟩, ⟨0⟩, ⟨0⟩, none⟩] [⟨⟨0⟩, [⟨1⟩], none⟩], fun _ => 1⟩
      (Policy.scan_lawful (by decide) (by decide)) 1 Nat.one_pos
      [⟨1⟩, ⟨1⟩, ⟨1⟩, ⟨1⟩] (by decide)
  obtain ⟨weights, hread, hsum⟩ := hsums 0 3 (by decide) (by decide)
  refine ⟨chart, hfill, weights, hread, ?_⟩
  rw [(hsum ⟨0⟩).2]
  decide +kernel

end Chart

end WeightedParsing
