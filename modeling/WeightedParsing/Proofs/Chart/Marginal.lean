import Mathlib.Data.ZMod.Basic
import WeightedParsing.Proofs.Chart.Outside

/-!
# Marginals and the partition function

Inside times outside weight is the summed weight of the complete derivations that
contain a constituent, and the partition function is that of all complete
derivations.  Weights that cancel out make a cell look empty and are not followed
any further down: products of inside and outside weights then still are what the
tables hold, but no longer sums over derivations.
-/

namespace WeightedParsing

variable {K S : Type} [WeightAlgebra K S]

attribute [local instance] LawfulWeights.semiring

theorem marginalWeights_eq (inside outside : SymbolWeights S) :
    marginalWeights inside outside =
      .ofList (inside.symbols.map fun x => (x, inside.get x * outside.get x)) := by
  unfold marginalWeights SymbolWeights.symbols OrderedTable.keys
  rw [List.map_map]
  congr 1
  apply List.map_congr_left
  intro entry hentry
  rw [Function.comp_apply, SymbolWeights.get_of_mem_entries hentry]

section Tables

variable [LawfulWeights K S]

theorem get_marginalWeights (inside outside : SymbolWeights S) (x : Symbol) :
    (marginalWeights inside outside).get x = inside.get x * outside.get x := by
  have hnodup : inside.symbols.Nodup := inside.table.nodup_keys
  rw [marginalWeights_eq,
    SymbolWeights.get_ofList_map hnodup fun x => inside.get x * outside.get x]
  by_cases hx : x ∈ inside.symbols
  · rw [if_pos hx]
  · rw [if_neg hx, SymbolWeights.get_eq_zero_of_not_mem hx, zero_mul]

theorem total_marginalWeights (inside outside : SymbolWeights S) :
    (marginalWeights inside outside).total =
      (inside.symbols.map fun x => inside.get x * outside.get x).sum := by
  have hsum := SymbolWeights.sum_entries_ofList (fun _ => (1 : S))
    (inside.symbols.map fun x => (x, inside.get x * outside.get x))
  simp only [one_mul, List.map_map] at hsum
  rw [marginalWeights_eq, SymbolWeights.total_eq_sum, hsum]
  rfl

theorem partitionFunction_restrictTo [Scalar K] (prior : RootPrior K)
    (inside : SymbolWeights S) :
    partitionFunction (prior.restrictTo inside.symbols) inside =
      (inside.symbols.map fun x => inside.get x * prior.weight x).sum := by
  rw [partitionFunction, foldl_add_eq_sum, zero_add, RootPrior.restrictTo,
    SymbolWeights.sum_entries_ofList inside.get, List.map_map]
  rfl

end Tables

section Run

variable [Scalar K] [CommutativeWeights K S] {model : Model K} {pass : InsidePass S}

theorem OutsidePass.marginal_run (hpass : pass.Complete model) (prior : RootPrior K)
    {first last : Nat} (hspan : first ≤ last) (hlast : last < pass.input.length) :
    (run model prior pass).marginal.get first last =
      marginalWeights (pass.inside first last)
        ((run model prior pass).outside.get first last) :=
  SpanTable.get_mapSpans hspan (by rw [hpass.size_cells]; exact hlast)

def completeSum (S : Type) [WeightAlgebra K S] [LawfulWeights K S] (model : Model K)
    (prior : RootPrior K) (input : List Symbol) : S :=
  ((completeDerivations model.policy input).map fun d =>
    prior.weight d.root * d.weight model).sum

/-- The entries of the whole input hold what a table of all complete derivations by
their roots would hold. -/
theorem OutsidePass.partition_run (hpass : pass.Complete model)
    (prior : RootPrior K) :
    (run model prior pass).partition = completeSum S model prior pass.input := by
  have hlength := hpass.nonempty
  let whole := pass.inside 0 (pass.input.length - 1)
  let roots := (completeDerivations model.policy pass.input).map fun d =>
    (d.root, (d.weight model : S))
  have hroots : ∀ x, whole.table.weightAt x =
      (roots.map fun entry => if entry.1 = x then entry.2 else 0).sum := by
    intro x
    rw [List.map_map]
    have hinside := hpass.get_inside 0 (pass.input.length - 1) (by omega) (by omega) x
    rw [derivationSum, derivations, sum_filter] at hinside
    simp only [decide_eq_true_eq] at hinside
    exact hinside
  calc (run model prior pass).partition
      = (whole.symbols.map fun x => whole.get x * prior.weight x).sum :=
        partitionFunction_restrictTo prior whole
    _ = (whole.entries.map fun e => prior.weight e.1 * e.2).sum := by
        rw [SymbolWeights.symbols, OrderedTable.keys, List.map_map]
        congr 1
        apply List.map_congr_left
        intro entry hentry
        rw [Function.comp_apply, SymbolWeights.get_of_mem_entries hentry,
          CommutativeWeights.mul_comm]
    _ = (roots.map fun e => prior.weight e.1 * e.2).sum :=
        OrderedTable.sum_entries_eq_of_weightAt (fun x => prior.weight x) hroots
    _ = completeSum S model prior pass.input := by
        rw [List.map_map]
        rfl

theorem OutsidePass.total_marginal_run (hpass : pass.Complete model)
    (prior : RootPrior K) :
    ((run model prior pass).marginal.get 0 (pass.input.length - 1)).total =
      (run model prior pass).partition := by
  have hlength := hpass.nonempty
  have hpartition : (run model prior pass).partition =
      ((pass.inside 0 (pass.input.length - 1)).symbols.map fun x =>
        (pass.inside 0 (pass.input.length - 1)).get x * prior.weight x).sum :=
    partitionFunction_restrictTo prior _
  rw [marginal_run hpass prior (by omega) (by omega), total_marginalWeights,
    hpartition]
  congr 1
  apply List.map_congr_left
  intro x hx
  rw [outside_run model prior pass (by omega) (by omega), if_pos (by omega),
    get_root_run, if_pos hx]

/-! ## Where nothing cancels out -/

theorem OutsidePass.get_marginal_run (hpass : pass.Complete model)
    (hpolicy : model.policy.Covering) (hfree : NoCancellation S model pass.input)
    (prior : RootPrior K) {first last : Nat} (hspan : first ≤ last)
    (hlast : last < pass.input.length) (x : Symbol) :
    ((run model prior pass).marginal.get first last).get x =
      ((derivationsWith model.policy pass.input x first last).map fun d =>
        prior.weight d.root * d.weight model).sum := by
  have hmultiplier : ∃ ds : List Derivation,
      (∀ d ∈ ds, Derives model.policy pass.input x first last d) ∧
        (derivationSum model pass.input x first last : S) =
          (ds.map (Derivation.weight model)).sum :=
    ⟨derivations model.policy pass.input x first last,
      fun d hd => mem_derivations.mp hd, rfl⟩
  have hinput : pass.input ≠ [] := List.length_pos_iff.mp hpass.nonempty
  rw [marginal_run hpass prior hspan hlast, get_marginalWeights,
    hpass.get_inside first last hspan hlast,
    hfree.multiplier_derivations.mul_outside hpass prior hspan hlast hmultiplier,
    sum_derivationsWith model hpolicy prior hinput hspan hlast,
    CommutativeWeights.mul_comm]

theorem OutsidePass.get_outside_run_eq_zero (hpass : pass.Complete model)
    (hfree : NoCancellation S model pass.input) (prior : RootPrior K)
    {first last : Nat} (hspan : first ≤ last) (hlast : last < pass.input.length)
    {x : Symbol} (hx : derivationSum model pass.input x first last = (0 : S)) :
    ((run model prior pass).outside.get first last).get x = 0 := by
  rw [outside_run model prior pass hspan hlast]
  by_cases hwhole : last - first + 1 = pass.input.length
  · obtain ⟨rfl, rfl⟩ : first = 0 ∧ last = pass.input.length - 1 := by omega
    rw [if_pos hwhole, get_root_run, if_neg]
    intro hmem
    obtain ⟨d, hd, hne⟩ := hpass.exists_of_mem _ _ hspan hlast x hmem
    exact hne (hfree x _ _ hspan hlast hx d hd)
  · rw [if_neg hwhole, SymbolWeights.get_ofList]
    apply sum_map_eq_zero
    intro share hshare
    apply if_neg
    rintro rfl
    rw [← hpass.get_inside first last hspan hlast] at hx
    exact get_ne_zero_of_mem_shares hspan hshare hx

theorem OutsidePass.get_outside_run_eq_contextSum (hpass : pass.Complete model)
    (hfree : NoCancellation S model pass.input)
    (hdivisor : ∀ a b : S, a * b = 0 → a = 0 ∨ b = 0) (prior : RootPrior K)
    {first last : Nat} (hspan : first ≤ last) (hlast : last < pass.input.length)
    {x : Symbol} (hx : derivationSum model pass.input x first last ≠ (0 : S)) :
    ((run model prior pass).outside.get first last).get x =
      contextSum model pass.input prior x first last := by
  have hone := (hfree.multiplier_of_ne_zero hdivisor).mul_outside hpass prior hspan
    hlast (m := 1) fun hzero => absurd hzero hx
  rwa [one_mul, one_mul] at hone

end Run

/-- Both passes over a sentence. -/
def Model.passOver [Scalar K] (S : Type) [WeightAlgebra K S] (model : Model K)
    (beamWidth : Nat) (beamWidth_pos : 0 < beamWidth) (prior : RootPrior K)
    (sentence : List Symbol) : OutsidePass S :=
  .run model prior (.run model beamWidth beamWidth_pos sentence)

/-! ## Reading a finished chart -/

namespace Chart

variable [Scalar K]

theorem parseMarginal_eq (model : Model K) (width : Nat) (width_pos : 0 < width)
    (prior : RootPrior K) {input : List Symbol} (hinput : input ≠ []) :
    (parseMarginal model width width_pos prior input : Except ChartError (Chart S)) =
      .ok ⟨input.length, width, width_pos,
        .outsideDone (.run model width width_pos input)
          (.run model prior (.run model width width_pos input))⟩ := by
  unfold parseMarginal parseInside
  rw [fillInside_blank model width width_pos hinput]
  rfl

theorem reads_outsideDone {length width : Nat} {width_pos : 0 < width}
    {inside : InsidePass S} {outside : OutsidePass S} {first last : Nat}
    (hspan : first ≤ last) (hlast : last < length) :
    let chart : Chart S := ⟨length, width, width_pos, .outsideDone inside outside⟩
    chart.inside first last = .ok (inside.inside first last) ∧
      chart.outside first last = .ok (outside.outside.get first last) ∧
        chart.marginal first last = .ok (outside.marginal.get first last) := by
  exact ⟨answer_of_le hspan hlast _, answer_of_le hspan hlast _,
    answer_of_le hspan hlast _⟩

/-- After both passes over a nonempty input the partition function sums over all
complete derivations, and it is the total of the marginals of the whole input.
Marginals are inside times outside weights.  If nothing cancels out, they sum over
the derivations with a constituent, and without divisors of zero an outside weight
sums over the contexts of a constituent with inside weight. -/
theorem marginals_eq_sums_over_derivations [CommutativeWeights K S] (model : Model K)
    (hpolicy : model.policy.Lawful) (width : Nat) (width_pos : 0 < width)
    (prior : RootPrior K) (input : List Symbol) (hinput : input ≠ []) :
    ∃ chart : Chart S,
      parseMarginal model width width_pos prior input = .ok chart ∧
        IsListing (completeDerivations model.policy input)
            (fun d => ∃ x, Derives model.policy input x 0 (input.length - 1) d) ∧
          chart.partition = .ok ((completeDerivations model.policy input).map fun d =>
            prior.weight d.root * d.weight model).sum ∧
          (∃ whole, chart.marginal 0 (input.length - 1) = .ok whole ∧
            chart.partition = .ok whole.total) ∧
          ∀ first last, first ≤ last → last < input.length →
            ∃ inside outside marginal,
              chart.inside first last = .ok inside ∧
                chart.outside first last = .ok outside ∧
                chart.marginal first last = .ok marginal ∧
                ∀ x,
                  marginal.get x = inside.get x * outside.get x ∧
                    (NoCancellation S model input →
                      marginal.get x =
                          ((derivationsWith model.policy input x first last).map
                            fun d => prior.weight d.root * d.weight model).sum ∧
                        (inside.get x = 0 → outside.get x = 0) ∧
                        ((∀ a b : S, a * b = 0 → a = 0 ∨ b = 0) →
                          inside.get x ≠ 0 →
                            IsListing (contexts model.policy input x first last)
                                (Surrounds model.policy input x first last) ∧
                              outside.get x =
                                ((contexts model.policy input x first last).map
                                  (Context.weight model prior x)).sum)) := by
  have hpass := InsidePass.complete_run (S := S) model hpolicy width width_pos hinput
  have hlength : 0 < input.length := List.length_pos_iff.mpr hinput
  have hpartition := OutsidePass.partition_run hpass prior
  refine ⟨_, parseMarginal_eq model width width_pos prior hinput, ?_, ?_, ?_, ?_⟩
  · refine ⟨nodup_derivationsOver hpolicy _ _ _, fun d => ?_⟩
    rw [mem_completeDerivations]
    constructor
    · intro hd
      exact ⟨_, hd⟩
    · rintro ⟨x, hd⟩
      rwa [hd.root_eq]
  · exact congrArg Except.ok hpartition
  · refine ⟨_, (reads_outsideDone (Nat.zero_le _) (by omega)).2.2, ?_⟩
    exact congrArg Except.ok (OutsidePass.total_marginal_run hpass prior).symm
  · intro first last hspan hlast
    obtain ⟨hinside, houtside, hmarginal⟩ := reads_outsideDone hspan hlast
    refine ⟨_, _, _, hinside, houtside, hmarginal, fun x => ⟨?_, fun hfree => ?_⟩⟩
    · rw [OutsidePass.marginal_run hpass prior hspan hlast, get_marginalWeights]
    · rw [hpass.get_inside first last hspan hlast]
      refine ⟨OutsidePass.get_marginal_run hpass hpolicy hfree prior hspan hlast x,
        OutsidePass.get_outside_run_eq_zero hpass hfree prior hspan hlast, ?_⟩
      intro hdivisor hx
      exact ⟨isListing_contexts hpolicy hspan hlast x,
        OutsidePass.get_outside_run_eq_contextSum hpass hfree hdivisor prior hspan
          hlast hx⟩

/-- Over natural numbers the constituent in the middle of three words lies in both
complete derivations. -/
theorem marginals_eq_sums_over_derivations_three_words :
    ∃ chart : Chart (SumProduct Nat),
      parseMarginal
          ⟨Policy.scan [⟨⟨0⟩, ⟨0⟩, ⟨0⟩, none⟩] [⟨⟨0⟩, [⟨1⟩], none⟩], fun _ => 2⟩ 1
          Nat.one_pos .uniform [⟨1⟩, ⟨1⟩, ⟨1⟩] = .ok chart ∧
        ∃ outside marginal, chart.outside 1 1 = .ok outside ∧
          chart.marginal 1 1 = .ok marginal ∧ (outside.get ⟨0⟩).value = 32 ∧
            (marginal.get ⟨0⟩).value = 64 := by
  obtain ⟨chart, hparse, _, _, _, hcells⟩ :=
    marginals_eq_sums_over_derivations (S := SumProduct Nat)
      ⟨Policy.scan [⟨⟨0⟩, ⟨0⟩, ⟨0⟩, none⟩] [⟨⟨0⟩, [⟨1⟩], none⟩], fun _ => 2⟩
      (Policy.scan_lawful (by decide) (by decide)) 1 Nat.one_pos .uniform
      [⟨1⟩, ⟨1⟩, ⟨1⟩] (by decide)
  obtain ⟨inside, outside, marginal, hinside, houtside, hmarginal, hweights⟩ :=
    hcells 1 1 (by decide) (by decide)
  have hvanish : ∀ a b : SumProduct Nat, a + b = 0 → a = 0 := by
    intro a b hsum
    exact SumProduct.ext_value
      (Nat.eq_zero_of_add_eq_zero_right (congrArg SumProduct.value hsum))
  have hdivisor : ∀ a b : SumProduct Nat, a * b = 0 → a = 0 ∨ b = 0 := by
    intro a b hproduct
    exact (Nat.mul_eq_zero.mp (congrArg SumProduct.value hproduct)).imp
      (fun h => SumProduct.ext_value h) fun h => SumProduct.ext_value h
  obtain ⟨hproduct, hsums⟩ := hweights ⟨0⟩
  obtain ⟨hmarginalSum, _, hcontexts⟩ := hsums
    (.of_cone (fun _ => True) (by simp) (by simp) trivial
      (fun a b _ _ => hvanish a b) (by simp) _)
  have hvalue : marginal.get ⟨0⟩ = ⟨64⟩ := by
    rw [hmarginalSum]
    exact SumProduct.ext_value (by decide +kernel)
  have hinsideNe : inside.get ⟨0⟩ ≠ 0 := by
    intro hzero
    rw [hproduct, hzero, zero_mul] at hvalue
    exact absurd (congrArg SumProduct.value hvalue) (by decide)
  refine ⟨chart, hparse, outside, marginal, houtside, hmarginal, ?_, ?_⟩
  · rw [(hcontexts hdivisor hinsideNe).2]
    decide +kernel
  · rw [hvalue]

/-! Without these conditions the sums fail.  In the first grammar
`s -> y z`, `y -> a b`, `y -> "a" "b"`, `a -> "a"`, `b -> "b"`, `z -> "c"` the
terminal rule for `y` weighs minus one: `y` has no inside weight over the first two
words, and its children are not followed.  In the second grammar `s -> x y`,
`x -> "a"`, `y -> "b"` the words weigh two and three modulo six, and `s` has no
weight. -/

def cancelling : Model ℚ where
  policy := .scan [⟨⟨0⟩, ⟨1⟩, ⟨2⟩, none⟩, ⟨⟨1⟩, ⟨3⟩, ⟨4⟩, none⟩]
    [⟨⟨1⟩, [⟨5⟩, ⟨6⟩], none⟩, ⟨⟨3⟩, [⟨5⟩], none⟩, ⟨⟨4⟩, [⟨6⟩], none⟩,
      ⟨⟨2⟩, [⟨7⟩], none⟩]
  ruleWeight := fun rule =>
    if rule = .terminal ⟨⟨1⟩, [⟨5⟩, ⟨6⟩], none⟩ then -1 else 1

instance : Scalar (ZMod 6) :=
  @Scalar.ofOrdered (ZMod 6) _ (inferInstanceAs (LinearOrder (Fin 6)))
    ⟨fun a b => a * b⁻¹⟩ id

instance : ExactScalar (ZMod 6) :=
  @exactScalar_ofOrdered (ZMod 6) _ (inferInstanceAs (LinearOrder (Fin 6)))
    ⟨fun a b => a * b⁻¹⟩ id

def dividingZero : Model (ZMod 6) where
  policy := .scan [⟨⟨0⟩, ⟨1⟩, ⟨2⟩, none⟩]
    [⟨⟨1⟩, [⟨3⟩], none⟩, ⟨⟨2⟩, [⟨4⟩], none⟩]
  ruleWeight := fun rule =>
    if rule = .terminal ⟨⟨1⟩, [⟨3⟩], none⟩ then 2
    else if rule = .terminal ⟨⟨2⟩, [⟨4⟩], none⟩ then 3
    else 1

/-- Outside weights and marginals are not sums over contexts and derivations in
every commutative semiring. -/
theorem outside_ne_contextSum :
    (cancelling.policy.Lawful ∧ ∃ chart : Chart (SumProduct ℚ),
      parseMarginal cancelling 1 Nat.one_pos .uniform [⟨5⟩, ⟨6⟩, ⟨7⟩] = .ok chart ∧
        ∃ inside outside marginal,
          chart.inside 0 0 = .ok inside ∧ chart.outside 0 0 = .ok outside ∧
            chart.marginal 0 0 = .ok marginal ∧
            inside.get ⟨3⟩ ≠ 0 ∧ outside.get ⟨3⟩ = 0 ∧
            ((contexts cancelling.policy [⟨5⟩, ⟨6⟩, ⟨7⟩] ⟨3⟩ 0 0).map
              (Context.weight cancelling .uniform ⟨3⟩)).sum = (⟨1⟩ : SumProduct ℚ) ∧
            marginal.get ⟨3⟩ = 0 ∧
            ((derivationsWith cancelling.policy [⟨5⟩, ⟨6⟩, ⟨7⟩] ⟨3⟩ 0 0).map fun d =>
              RootPrior.uniform.weight d.root * d.weight cancelling).sum =
                (⟨1⟩ : SumProduct ℚ)) ∧
    (dividingZero.policy.Lawful ∧ NoCancellation (SumProduct (ZMod 6)) dividingZero
        [⟨3⟩, ⟨4⟩] ∧
      ∃ chart : Chart (SumProduct (ZMod 6)),
        parseMarginal dividingZero 1 Nat.one_pos .uniform [⟨3⟩, ⟨4⟩] = .ok chart ∧
          ∃ inside outside,
            chart.inside 0 0 = .ok inside ∧ chart.outside 0 0 = .ok outside ∧
              inside.get ⟨1⟩ ≠ 0 ∧ outside.get ⟨1⟩ = 0 ∧
              ((contexts dividingZero.policy [⟨3⟩, ⟨4⟩] ⟨1⟩ 0 0).map
                (Context.weight dividingZero .uniform ⟨1⟩)).sum =
                  (⟨3⟩ : SumProduct (ZMod 6))) := by
  have hne : ∀ {K : Type} {a b : SumProduct K}, a.value ≠ b.value → a ≠ b :=
    fun hvalue heq => hvalue (congrArg SumProduct.value heq)
  constructor
  · refine ⟨Policy.scan_lawful (by decide) (by decide), _,
      parseMarginal_eq _ _ _ _ (by decide), _, _, _, rfl, rfl, rfl, hne ?_,
      SumProduct.ext_value ?_, SumProduct.ext_value ?_, SumProduct.ext_value ?_,
      SumProduct.ext_value ?_⟩
    all_goals decide +kernel
  · refine ⟨Policy.scan_lawful (by decide) (by decide), ?_, _,
      parseMarginal_eq _ _ _ _ (by decide), _, _, rfl, rfl, hne ?_,
      SumProduct.ext_value ?_, SumProduct.ext_value ?_⟩
    · apply NoCancellation.of_unambiguous
      intro x first last hspan hlast
      have hover : ∀ last < 2, ∀ first ≤ last,
          (derivationsOver dividingZero.policy [⟨3⟩, ⟨4⟩] first last).length ≤ 1 := by
        decide +kernel
      exact (List.length_filter_le _ _).trans (hover last hlast first hspan)
    all_goals decide +kernel

end Chart

end WeightedParsing
