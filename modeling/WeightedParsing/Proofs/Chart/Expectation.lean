import WeightedParsing.Proofs.Chart.Marginal

/-!
# Expectations as sums over uses of rules

The table of expectations adds up the uses of rules in one sweep for binary and one
for terminal rules.  What it adds for a span are the derivations with the rule at
their top, each times the outside weight of its root; summed over all spans, these
are the uses of the rule in complete derivations.
-/

namespace WeightedParsing

variable {K S : Type} [WeightAlgebra K S]

attribute [local instance] LawfulWeights.semiring

section Uses

variable [CommutativeWeights K S]

theorem sum_binaryUses (model : Model K)
    (inside outside : (first last : Nat) → SymbolWeights S) (first last : Nat)
    (rule : Rule) :
    ((binaryUses model inside outside first last).map fun use =>
        if use.1 = rule then use.2 else 0).sum =
      ((List.range (last - first)).map fun split =>
        ((model.policy.binaryRules first last split).map fun r =>
          if .binary r = rule then
            model.weigh (.binary r) * (inside first (first + split)).get r.left *
              (inside (first + split + 1) last).get r.right *
                (outside first last).get r.parent
          else 0).sum).sum := by
  unfold binaryUses
  rw [sum_flatMap]
  congr 2
  funext split
  unfold ruleUses
  rw [List.map_map, sum_filterMap]
  congr 2
  funext r
  by_cases hparent : (outside first last).get r.parent = 0
  · simp [hparent]
  by_cases hleft : (inside first (first + split)).get r.left = 0
  · simp [hleft]
  by_cases hright : (inside (first + split + 1) last).get r.right = 0
  · simp [hright]
  · simp [hparent, hleft, hright, RuleUse.expectation]
    rfl

theorem mem_terminalUses {model : Model K} {input : List Symbol}
    {outside : (first last : Nat) → SymbolWeights S} {first last : Nat} {use : Rule × S} :
    use ∈ terminalUses model input outside first last ↔
      ∃ rule ∈ model.policy.lexicalRules input first last,
        (outside first last).get rule.parent ≠ 0 ∧
          use = (.terminal rule,
            model.weigh (.terminal rule) * (outside first last).get rule.parent) :=
  mem_filterMap_of_weight

theorem sum_terminalUses (model : Model K) (input : List Symbol)
    (outside : (first last : Nat) → SymbolWeights S) (first last : Nat)
    (rule : Rule) :
    ((terminalUses model input outside first last).map fun use =>
        if use.1 = rule then use.2 else 0).sum =
      ((model.policy.lexicalRules input first last).map fun r =>
        if .terminal r = rule then
          model.weigh (.terminal r) * (outside first last).get r.parent
        else 0).sum := by
  unfold terminalUses
  rw [sum_filterMap]
  congr 2
  funext r
  by_cases hparent : (outside first last).get r.parent = 0
  · simp [hparent]
  · simp [hparent]

omit [CommutativeWeights K S] in
/-- The table of expectations adds up the uses of rules over all spans. -/
theorem expectedUses_eq (model : Model K) (input : List Symbol)
    (inside outside : (first last : Nat) → SymbolWeights S) :
    expectedUses model input inside outside =
      ((spansNarrowing input.length).flatMap (fun span =>
          binaryUses model inside outside span.1 span.2) ++
        (spansWidening input.length).flatMap fun span =>
          terminalUses model input outside span.1 span.2).foldl
        OrderedTable.accumulate .empty := by
  rw [List.foldl_append, List.foldl_flatMap, List.foldl_flatMap]
  rfl

/-- The table of expectations holds under every rule the sum over all its uses. -/
theorem weightAt_expectedUses (model : Model K) (input : List Symbol)
    (inside outside : (first last : Nat) → SymbolWeights S) (rule : Rule) :
    (expectedUses model input inside outside).weightAt rule =
      ((spansWidening input.length).map fun span =>
        ((binaryUses model inside outside span.1 span.2).map fun use =>
          if use.1 = rule then use.2 else 0).sum +
        ((terminalUses model input outside span.1 span.2).map fun use =>
          if use.1 = rule then use.2 else 0).sum).sum := by
  rw [expectedUses_eq, OrderedTable.weightAt_foldl_accumulate, OrderedTable.weightAt_empty,
    zero_add, List.map_append, List.sum_append, sum_flatMap, sum_flatMap,
    ((spansNarrowing_perm input.length).map _).sum_eq, List.sum_map_add]

variable [Scalar K] {model : Model K} {pass : InsidePass S}

/-- What the sweeps add for a span are the derivations with the rule at their top,
each in all its contexts. -/
theorem OutsidePass.sum_uses_run (hpass : pass.Complete model)
    (hpolicy : model.policy.Covering) (hfree : NoCancellation S model pass.input)
    (prior : RootPrior K) {first last : Nat} (hspan : first ≤ last)
    (hlast : last < pass.input.length) (rule : Rule) :
    ((binaryUses model pass.inside (run model prior pass).outside.get first
          last).map fun use => if use.1 = rule then use.2 else 0).sum +
        ((terminalUses model pass.input (run model prior pass).outside.get first
          last).map fun use => if use.1 = rule then use.2 else 0).sum =
      ((derivationsOver model.policy pass.input first last).map fun d =>
        (if d.rule = rule then
          contextSum model pass.input prior d.rule.parent first last
        else 0) * (d.weight model : S)).sum := by
  have houtside : ∀ (x : Symbol) (ds : List Derivation),
      (∀ d ∈ ds, Derives model.policy pass.input x first last d) →
        (ds.map (Derivation.weight model)).sum *
            ((run model prior pass).outside.get first last).get x =
          contextSum model pass.input prior x first last *
            (ds.map (Derivation.weight model)).sum := by
    intro x ds hds
    rw [hfree.multiplier_derivations.mul_outside hpass prior hspan hlast ⟨ds, hds, rfl⟩,
      CommutativeWeights.mul_comm]
  rw [sum_derivationsOver model pass.input first last fun r =>
      if r = rule then contextSum model pass.input prior r.parent first last else 0,
    add_comm, sum_binaryUses, sum_terminalUses, hpolicy.lexicalRules_eq hspan hlast]
  congr 2
  · apply List.map_congr_left
    intro r hr
    rw [ite_mul, zero_mul]
    have hleaf := houtside r.parent [.leaf r] (by simpa using .leaf hr)
    simp only [List.map_cons, List.map_nil, List.sum_cons, List.sum_nil, add_zero,
      Derivation.weight] at hleaf
    rw [hleaf]
    rfl
  · apply List.map_congr_left
    intro split hsplit
    rw [List.mem_range] at hsplit
    congr 1
    apply List.map_congr_left
    intro r hr
    rw [ite_mul, zero_mul, hpass.get_inside _ _ (by omega) (by omega),
      hpass.get_inside _ _ (by omega) hlast]
    have hnode := houtside r.parent
      (joins split r (derivations model.policy pass.input r.left first (first + split))
        (derivations model.policy pass.input r.right (first + split + 1) last)) (by
      intro d hd
      obtain ⟨left, hleft, right, hright, rfl⟩ := mem_joins.mp hd
      exact .node hsplit hr (mem_derivations.mp hleft) (mem_derivations.mp hright))
    rw [sum_joins] at hnode
    rw [derivationSum, derivationSum, hnode]
    rfl

theorem OutsidePass.weightAt_expectations_run (hpass : pass.Complete model)
    (hpolicy : model.policy.Covering) (hfree : NoCancellation S model pass.input)
    (prior : RootPrior K) (rule : Rule) :
    (run model prior pass).expectations.weightAt rule =
      ((occurrences model.policy pass.input rule).map fun d =>
        prior.weight d.root * d.weight model).sum := by
  have hinput : pass.input ≠ [] := List.length_pos_iff.mp hpass.nonempty
  rw [sum_occurrences model hpolicy prior hinput]
  change (expectedUses model pass.input pass.inside
    (run model prior pass).outside.get).weightAt rule = _
  rw [weightAt_expectedUses]
  congr 1
  apply List.map_congr_left
  intro span hspan
  rw [mem_spansWidening] at hspan
  exact sum_uses_run hpass hpolicy hfree prior hspan.1 hspan.2 rule

end Uses

/-! ## Normalized counts -/

section Counts

variable [Scalar K]

theorem ExpectedCounts.get_add (counts : ExpectedCounts K) (rule r : Rule)
    (amount : K) :
    (counts.add rule amount).get r =
      if rule = r then counts.get r + amount else counts.get r := by
  unfold add get
  by_cases hr : rule = r
  · subst hr
    simp
  · rw [if_neg hr, OrderedTable.get?_update_of_ne _ (Ne.symm hr)]

theorem ExpectedCounts.get_addAll {amounts : List (Rule × K)}
    (hnodup : (amounts.map Prod.fst).Nodup) (counts : ExpectedCounts K) (rule : Rule) :
    (counts.addAll amounts).get rule =
      match amounts.find? fun entry => entry.1 = rule with
      | some entry => counts.get rule + entry.2
      | none => counts.get rule := by
  unfold addAll
  induction amounts generalizing counts with
  | nil => rfl
  | cons entry rest ih =>
      rw [List.map_cons, List.nodup_cons] at hnodup
      rw [List.foldl_cons, ih hnodup.2, get_add]
      by_cases hentry : entry.1 = rule
      · have hrest : (rest.find? fun e => e.1 = rule) = none := by
          rw [List.find?_eq_none]
          intro e he heq
          apply hnodup.1
          rw [hentry, ← of_decide_eq_true heq]
          exact List.mem_map_of_mem he
        rw [hrest, List.find?_cons_of_pos (by simpa using hentry), if_pos hentry]
      · rw [List.find?_cons_of_neg (by simpa using hentry), if_neg hentry]

variable [InvertibleWeights K S]

theorem OutsidePass.get_normalizedCounts (pass : OutsidePass S)
    (hpartition : pass.partition ≠ 0) (rule : Rule) :
    pass.normalizedCounts.get rule =
      WeightAlgebra.toWeight
        (WeightAlgebra.divide (pass.expectations.weightAt rule) pass.partition) := by
  have hkeys : ((pass.expectations.entries.map fun entry =>
      (entry.1, WeightAlgebra.toWeight
        (WeightAlgebra.divide entry.2 pass.partition))).map Prod.fst).Nodup := by
    rw [List.map_map]
    exact pass.expectations.nodup_keys
  unfold normalizedCounts
  rw [if_neg (by simpa using hpartition), ExpectedCounts.get_addAll hkeys,
    List.find?_map]
  unfold OrderedTable.weightAt OrderedTable.get?
  simp only [Function.comp_def]
  cases hfind : pass.expectations.entries.find? fun entry => entry.1 = rule with
  | none =>
      have hzero : WeightAlgebra.divide 0 pass.partition = 0 := by
        rw [divide_eq_mul _ hpartition, zero_mul]
      simp only [Option.map_none, Option.getD_none, hzero,
        InvertibleWeights.toWeight_zero]
      rfl
  | some entry => exact InvertibleWeights.scalar_zero_add (S := S) _

end Counts

/-! ## Reading a finished chart -/

/-- The weight that a list of entries gives a rule; zero if there is none. -/
def readEntry (entries : List (Rule × S)) (rule : Rule) : S :=
  ((entries.find? fun entry => entry.1 = rule).map Prod.snd).getD 0

theorem readEntry_filter (table : OrderedTable Rule S) (keep : Rule → Bool)
    {rule : Rule} (hkeep : keep rule = true) :
    readEntry (table.entries.filter fun entry => keep entry.1) rule =
      table.weightAt rule := by
  unfold readEntry OrderedTable.weightAt OrderedTable.get?
  rw [List.find?_filter]
  congr 3
  funext entry
  by_cases hentry : entry.1 = rule
  · simp [hentry, hkeep]
  · simp [hentry]

namespace Chart

variable [Scalar K]

/-- After both passes over a nonempty input where nothing cancels out, the entry of
a rule sums the complete derivations that use the rule, each of them once for every
use.  Normalized, it is the number of uses averaged over all complete derivations;
there are no normalized entries if the partition function is zero. -/
theorem expectations_eq_sums_over_occurrences [CommutativeWeights K S]
    (model : Model K) (hpolicy : model.policy.Lawful) (width : Nat)
    (width_pos : 0 < width) (prior : RootPrior K) (input : List Symbol)
    (hinput : input ≠ []) :
    ∃ chart : Chart S,
      parseMarginal model width width_pos prior input = .ok chart ∧
        ∃ binary terminal partition counts,
          chart.binaryExpectations = .ok binary ∧
            chart.terminalExpectations = .ok terminal ∧
            chart.partition = .ok partition ∧
            chart.normalizedExpectations = .ok counts ∧
            (partition = 0 → counts.entries = []) ∧
            (NoCancellation S model input →
              (∀ rule, readEntry binary (.binary rule) =
                ((occurrences model.policy input (.binary rule)).map fun d =>
                  prior.weight d.root * d.weight model).sum) ∧
              (∀ rule, readEntry terminal (.terminal rule) =
                ((occurrences model.policy input (.terminal rule)).map fun d =>
                  prior.weight d.root * d.weight model).sum) ∧
              (InvertibleWeights K S → partition ≠ 0 → ∀ rule,
                counts.get rule = WeightAlgebra.toWeight
                  ((occurrences model.policy input rule).map fun d =>
                    WeightAlgebra.divide (prior.weight d.root * d.weight model)
                      partition).sum)) := by
  have hpass := InsidePass.complete_run (S := S) model hpolicy width width_pos hinput
  refine ⟨_, parseMarginal_eq model width width_pos prior hinput, _, _, _, _, rfl, rfl,
    rfl, rfl, ?_, ?_⟩
  · intro hzero
    unfold OutsidePass.normalizedCounts
    rw [if_pos (isZero_eq_true_iff.mpr hzero)]
    rfl
  · intro hfree
    have hweight : ∀ rule, (OutsidePass.run model prior
        (.run model width width_pos input)).expectations.weightAt rule =
          ((occurrences model.policy input rule).map fun d =>
            prior.weight d.root * (d.weight model : S)).sum :=
      OutsidePass.weightAt_expectations_run hpass hpolicy hfree prior
    refine ⟨fun rule => ?_, fun rule => ?_, ?_⟩
    · rw [← hweight]
      exact readEntry_filter _ (fun r => !r.isTerminal) rfl
    · rw [← hweight]
      exact readEntry_filter _ Rule.isTerminal rfl
    · intro hinvertible hpartition rule
      rw [OutsidePass.get_normalizedCounts _ hpartition, hweight,
        divide_sum _ _ hpartition]

/-- Three words have two derivations that each use the binary rule twice, and the
terminal rule once for each word. -/
theorem expectations_eq_sums_over_occurrences_three_words :
    ∃ chart : Chart (SumProduct ℚ),
      parseMarginal
          ⟨Policy.scan [⟨⟨0⟩, ⟨0⟩, ⟨0⟩, none⟩] [⟨⟨0⟩, [⟨1⟩], none⟩], fun _ => 1 / 2⟩ 1
          Nat.one_pos .uniform [⟨1⟩, ⟨1⟩, ⟨1⟩] = .ok chart ∧
        ∃ binary counts, chart.binaryExpectations = .ok binary ∧
          chart.normalizedExpectations = .ok counts ∧
          readEntry binary (.binary ⟨⟨0⟩, ⟨0⟩, ⟨0⟩, none⟩) = ⟨1 / 8⟩ ∧
          counts.get (.binary ⟨⟨0⟩, ⟨0⟩, ⟨0⟩, none⟩) = 2 ∧
          counts.get (.terminal ⟨⟨0⟩, [⟨1⟩], none⟩) = 3 := by
  obtain ⟨chart, hparse, binary, terminal, partition, counts, hbinary, _, hpartition,
    hcounts, _, hsums⟩ :=
    expectations_eq_sums_over_occurrences (S := SumProduct ℚ)
      ⟨Policy.scan [⟨⟨0⟩, ⟨0⟩, ⟨0⟩, none⟩] [⟨⟨0⟩, [⟨1⟩], none⟩], fun _ => 1 / 2⟩
      (Policy.scan_lawful (by decide) (by decide)) 1 Nat.one_pos .uniform
      [⟨1⟩, ⟨1⟩, ⟨1⟩] (by decide)
  have hhalf : (0 : ℚ) ≤ 1 / 2 := by decide +kernel
  obtain ⟨hbinarySum, _, hcountsSum⟩ := hsums (.of_nonneg (fun _ => hhalf) _)
  have hvalue : partition = ⟨1 / 16⟩ := by
    rw [parseMarginal_eq _ _ _ _ (by decide)] at hparse
    cases hparse
    cases hpartition
    exact SumProduct.ext_value (by decide +kernel)
  subst hvalue
  have hne : (⟨1 / 16⟩ : SumProduct ℚ) ≠ 0 := by
    intro heq
    exact absurd (congrArg SumProduct.value heq) (by decide +kernel)
  refine ⟨chart, hparse, binary, counts, hbinary, hcounts, ?_, ?_, ?_⟩
  · rw [hbinarySum]
    exact SumProduct.ext_value (by decide +kernel)
  · rw [hcountsSum inferInstance hne]
    decide +kernel
  · rw [hcountsSum inferInstance hne]
    decide +kernel

/-- In the cancelling grammar the rule over the first two words is used once and
gets no entry. -/
theorem readEntry_ne_sum_over_occurrences :
    cancelling.policy.Lawful ∧ ∃ chart : Chart (SumProduct ℚ),
      parseMarginal cancelling 1 Nat.one_pos .uniform [⟨5⟩, ⟨6⟩, ⟨7⟩] = .ok chart ∧
        ∃ binary, chart.binaryExpectations = .ok binary ∧
          readEntry binary (.binary ⟨⟨1⟩, ⟨3⟩, ⟨4⟩, none⟩) = 0 ∧
          ((occurrences cancelling.policy [⟨5⟩, ⟨6⟩, ⟨7⟩]
              (.binary ⟨⟨1⟩, ⟨3⟩, ⟨4⟩, none⟩)).map fun d =>
            RootPrior.uniform.weight d.root * d.weight cancelling).sum =
              (⟨1⟩ : SumProduct ℚ) := by
  refine ⟨Policy.scan_lawful (by decide) (by decide), _,
    parseMarginal_eq _ _ _ _ (by decide), _, rfl, SumProduct.ext_value ?_,
    SumProduct.ext_value ?_⟩
  all_goals decide +kernel

end Chart

end WeightedParsing
