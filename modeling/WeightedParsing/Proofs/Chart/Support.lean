import WeightedParsing.Proofs.Chart.Expectation

/-!
# What the tables keep

The passes skip whatever weighs nothing, and readers take a missing entry for a zero.
Among weights that do not cancel out no table stores a zero, and the entries that are
there tell which parts of the input matter: an inside entry stands for a constituent with
a derivation of some weight, and an outside or marginal entry for a constituent of a
complete derivation of some weight.
-/

namespace WeightedParsing

variable {K S : Type} [WeightAlgebra K S]

/-- A complete derivation to which its rules and the prior over its root give some
weight. -/
structure Derivation.IsUseful (S : Type) [WeightAlgebra K S] [Scalar K] (model : Model K)
    (prior : RootPrior K) (input : List Symbol) (d : Derivation) : Prop where
  derives : Derives model.policy input d.root 0 (input.length - 1) d
  weight_ne_zero : prior.weight d.root * d.weight model ≠ (0 : S)

/-- The constituent `x` from `first` to `last` is part of a useful derivation. -/
def IsUsefulConstituent (S : Type) [WeightAlgebra K S] [Scalar K] (model : Model K)
    (prior : RootPrior K) (input : List Symbol) (x : Symbol) (first last : Nat) : Prop :=
  ∃ d : Derivation, d.IsUseful S model prior input ∧
    ∃ part ∈ d.constituents 0 (input.length - 1),
      part.first = first ∧ part.last = last ∧ part.derivation.root = x

theorem isUsefulConstituent_iff [Scalar K] {model : Model K} {prior : RootPrior K}
    {input : List Symbol} {x : Symbol} {first last : Nat} :
    IsUsefulConstituent S model prior input x first last ↔
      ∃ d ∈ derivationsWith model.policy input x first last,
        prior.weight d.root * d.weight model ≠ (0 : S) := by
  constructor
  · rintro ⟨d, huseful, hpart⟩
    exact ⟨d, mem_derivationsWith.mpr ⟨mem_completeDerivations.mpr huseful.derives, hpart⟩,
      huseful.weight_ne_zero⟩
  · rintro ⟨d, hd, hne⟩
    obtain ⟨hcomplete, hpart⟩ := mem_derivationsWith.mp hd
    exact ⟨d, ⟨mem_completeDerivations.mp hcomplete, hne⟩, hpart⟩

theorem Derivation.IsUseful.isUsefulConstituent [Scalar K] {model : Model K}
    {prior : RootPrior K} {input : List Symbol} {d : Derivation}
    (huseful : d.IsUseful S model prior input) :
    IsUsefulConstituent S model prior input d.root 0 (input.length - 1) :=
  ⟨d, huseful, _, d.self_mem_constituents _ _, rfl, rfl, rfl⟩

attribute [local instance] LawfulWeights.semiring

section Passes

variable [CommutativeWeights K S] {p : S → Prop} (hp : ZeroSumFree p) {model : Model K}
  {pass : InsidePass S} (hrules : ∀ rule, p (model.weigh rule))
  (hpass : pass.Complete model) {first last : Nat} (hspan : first ≤ last)
  (hlast : last < pass.input.length)

include hp hrules hpass hspan hlast

namespace InsidePass

/-- A symbol has an inside entry exactly if it has a derivation of some weight. -/
theorem Complete.mem_symbols_iff {x : Symbol} :
    x ∈ (pass.inside first last).symbols ↔
      ∃ d, Derives model.policy pass.input x first last d ∧ d.weight model ≠ (0 : S) := by
  constructor
  · exact hpass.exists_of_mem first last hspan hlast x
  · rw [← hp.derivationSum_ne_zero_iff hrules, ← hpass.get_inside first last hspan hlast]
    exact OrderedTable.mem_keys_of_weightAt_ne_zero

theorem Complete.holdsNonzero : (pass.inside first last).HoldsNonzero p := by
  intro entry hentry
  have hkey : entry.1 ∈ (pass.inside first last).symbols := List.mem_map_of_mem hentry
  rw [hpass.mem_symbols_iff hp hrules hspan hlast, ← hp.derivationSum_ne_zero_iff hrules,
    ← hpass.get_inside first last hspan hlast, SymbolWeights.get_of_mem_entries hentry]
    at hkey
  refine ⟨?_, hkey⟩
  rw [← SymbolWeights.get_of_mem_entries hentry, hpass.get_inside first last hspan hlast]
  exact hp.sum fun d _ => hp.weight hrules d

end InsidePass

namespace OutsidePass

variable [Scalar K] {prior : RootPrior K} (hprior : ∀ x, p (prior.weight x))

omit hrules hpass hspan hlast in
include hprior in
theorem holdsNonzero_root_run (pass : InsidePass S) :
    (run model prior pass).root.HoldsNonzero p := by
  apply SymbolWeights.holdsNonzero_ofList hp
  intro entry hentry
  obtain ⟨x, _, rfl⟩ := List.mem_map.mp hentry
  exact hprior x

include hprior

/-- What a span gains is made of weights of rules, inside weights and the outside weights
of wider spans. -/
theorem holdsNonzero_outside_run :
    ((run model prior pass).outside.get first last).HoldsNonzero p := by
  -- Outside cells are filled from the whole input down, so the wider spans come first.
  induction hwidth : pass.input.length - (last - first) using Nat.strong_induction_on
    generalizing first last with
  | _ w ih =>
      rw [outside_run model prior pass hspan hlast]
      split
      · exact holdsNonzero_root_run hp hprior pass
      apply SymbolWeights.holdsNonzero_ofList hp
      intro share hshare
      obtain ⟨s, e, split, use, hwide, hsplit, he, huse, hchild⟩ :=
        exists_use_of_mem_shares hspan hshare
      obtain ⟨rule, _, _, _, _, rfl⟩ := mem_ruleUses.mp huse
      have houter : ((run model prior pass).outside.get s e).HoldsNonzero p :=
        ih _ (by omega) (by omega) (he hlast) rfl
      have hparent := houter.get hp rule.parent
      rcases hchild with ⟨_, _, rfl⟩ | ⟨_, _, rfl⟩
      · have hright : (pass.inside (s + split + 1) e).HoldsNonzero p :=
          hpass.holdsNonzero hp hrules (by omega) (he hlast)
        exact hp.mul (hp.mul (hrules _) (hright.get hp _)) hparent
      · have hleft : (pass.inside s (s + split)).HoldsNonzero p :=
          hpass.holdsNonzero hp hrules (by omega) (by omega)
        exact hp.mul (hp.mul (hrules _) (hleft.get hp _)) hparent

theorem holdsNonzero_marginal_run :
    ((run model prior pass).marginal.get first last).HoldsNonzero p := by
  rw [marginal_run hpass prior hspan hlast]
  apply SymbolWeights.holdsNonzero_ofList hp
  intro entry hentry
  obtain ⟨inner, hinner, rfl⟩ := List.mem_map.mp hentry
  have hinside := hpass.holdsNonzero hp hrules hspan hlast
  have houtside := holdsNonzero_outside_run hp hrules hpass hspan hlast hprior
  exact hp.mul (hinside inner hinner).1 (houtside.get hp inner.1)

/-- A symbol has a marginal entry exactly if it is a constituent of a complete derivation
of some weight. -/
theorem mem_marginal_run_iff (hpolicy : model.policy.Covering) {x : Symbol} :
    x ∈ ((run model prior pass).marginal.get first last).symbols ↔
      IsUsefulConstituent S model prior pass.input x first last := by
  have hmarginal := holdsNonzero_marginal_run hp hrules hpass hspan hlast hprior
  rw [isUsefulConstituent_iff, hmarginal.mem_symbols_iff, get_marginal_run hpass hpolicy
    (hp.noCancellation hrules pass.input) prior hspan hlast]
  exact hp.sum_ne_zero_iff fun d _ => hp.mul (hprior d.root) (hp.weight hrules d)

/-- Outside weight is only handed down to children that can be completed, so that no
outside entry goes without a marginal. -/
theorem mem_outside_run_iff (hpolicy : model.policy.Covering)
    (hdivisor : ∀ a b : S, a * b = 0 → a = 0 ∨ b = 0) {x : Symbol} :
    x ∈ ((run model prior pass).outside.get first last).symbols ↔
      IsUsefulConstituent S model prior pass.input x first last := by
  have houtside := holdsNonzero_outside_run hp hrules hpass hspan hlast hprior
  have hmarginal := holdsNonzero_marginal_run hp hrules hpass hspan hlast hprior
  rw [← mem_marginal_run_iff hp hrules hpass hspan hlast hprior hpolicy,
    houtside.mem_symbols_iff, hmarginal.mem_symbols_iff,
    marginal_run hpass prior hspan hlast, get_marginalWeights]
  constructor
  · intro hne hproduct
    rcases hdivisor _ _ hproduct with hinside | houter
    -- Shares go only to children with inside weight, so that there is none to lose here.
    · rw [hpass.get_inside first last hspan hlast] at hinside
      exact hne (get_outside_run_eq_zero hpass (hp.noCancellation hrules pass.input) prior
        hspan hlast hinside)
    · exact hne houter
  · exact right_ne_zero_of_mul

omit hspan hlast

theorem holdsNonzero_expectations_run :
    (run model prior pass).expectations.HoldsNonzero p := by
  change (expectedUses model pass.input pass.inside
    (run model prior pass).outside.get).HoldsNonzero p
  rw [expectedUses_eq]
  apply OrderedTable.HoldsNonzero.foldl_accumulate _ hp
  · intro use huse
    rw [List.mem_append, List.mem_flatMap, List.mem_flatMap] at huse
    rcases huse with ⟨⟨s, e⟩, hspan, huse⟩ | ⟨⟨s, e⟩, hspan, huse⟩
    · rw [(spansNarrowing_perm _).mem_iff, mem_spansWidening] at hspan
      obtain ⟨split, hsplit, huse⟩ := List.mem_flatMap.mp huse
      obtain ⟨used, hused, rfl⟩ := List.mem_map.mp huse
      obtain ⟨rule, _, _, _, _, rfl⟩ := mem_ruleUses.mp hused
      rw [List.mem_range] at hsplit
      have hleft : (pass.inside s (s + split)).HoldsNonzero p :=
        hpass.holdsNonzero hp hrules (by omega) (by omega)
      have hright : (pass.inside (s + split + 1) e).HoldsNonzero p :=
        hpass.holdsNonzero hp hrules (by omega) hspan.2
      have houter := holdsNonzero_outside_run hp hrules hpass hspan.1 hspan.2 hprior
      exact hp.mul (hp.mul (hp.mul (hrules _) (hleft.get hp _)) (hright.get hp _))
        (houter.get hp _)
    · rw [mem_spansWidening] at hspan
      obtain ⟨rule, _, _, rfl⟩ := mem_terminalUses.mp huse
      have houter := holdsNonzero_outside_run hp hrules hpass hspan.1 hspan.2 hprior
      exact hp.mul (hrules _) (houter.get hp _)
  · intro entry hentry
    cases hentry

/-- A rule has an entry of expected uses exactly if a complete derivation of some weight
uses it. -/
theorem mem_expectations_run_iff (hpolicy : model.policy.Covering) {rule : Rule} :
    rule ∈ (run model prior pass).expectations.keys ↔
      ∃ d : Derivation, d.IsUseful S model prior pass.input ∧ rule ∈ d.rules := by
  have htable := holdsNonzero_expectations_run hp hrules hpass hprior
  rw [htable.mem_keys_iff, weightAt_expectations_run hpass hpolicy
    (hp.noCancellation hrules pass.input) prior,
    hp.sum_ne_zero_iff fun d _ => hp.mul (hprior d.root) (hp.weight hrules d)]
  simp only [mem_occurrences, mem_completeDerivations]
  constructor
  · rintro ⟨d, ⟨hd, hrule⟩, hne⟩
    exact ⟨d, ⟨hd, hne⟩, hrule⟩
  · rintro ⟨d, huseful, hrule⟩
    exact ⟨d, ⟨huseful.derives, hrule⟩, huseful.weight_ne_zero⟩

theorem partition_run_eq_zero_iff :
    (run model prior pass).partition = 0 ↔
      ∀ d : Derivation, ¬ d.IsUseful S model prior pass.input := by
  rw [partition_run hpass prior, completeSum,
    hp.sum_eq_zero_iff fun d _ => hp.mul (hprior d.root) (hp.weight hrules d)]
  constructor
  · intro hzero d huseful
    exact huseful.weight_ne_zero (hzero d (mem_completeDerivations.mpr huseful.derives))
  · intro hnone d hd
    by_contra hne
    exact hnone d ⟨mem_completeDerivations.mp hd, hne⟩

/-- Where no complete derivation has any weight, the outside pass leaves nothing. -/
theorem forall_not_isUseful_iff (hpolicy : model.policy.Covering)
    (hdivisor : ∀ a b : S, a * b = 0 → a = 0 ∨ b = 0) :
    (∀ d : Derivation, ¬ d.IsUseful S model prior pass.input) ↔
      (∀ first last, first ≤ last → last < pass.input.length →
        (run model prior pass).outside.get first last = .empty ∧
          (run model prior pass).marginal.get first last = .empty) ∧
        (run model prior pass).expectations.entries = [] := by
  constructor
  · intro hnone
    refine ⟨fun first last hspan hlast => ⟨?_, ?_⟩, ?_⟩
    · rw [SymbolWeights.eq_empty_iff]
      intro x
      rw [mem_outside_run_iff hp hrules hpass hspan hlast hprior hpolicy hdivisor]
      rintro ⟨d, huseful, _⟩
      exact hnone d huseful
    · rw [SymbolWeights.eq_empty_iff]
      intro x
      rw [mem_marginal_run_iff hp hrules hpass hspan hlast hprior hpolicy]
      rintro ⟨d, huseful, _⟩
      exact hnone d huseful
    · rw [← List.map_eq_nil_iff, List.eq_nil_iff_forall_not_mem]
      intro rule hmem
      obtain ⟨d, huseful, _⟩ :=
        (mem_expectations_run_iff hp hrules hpass hprior hpolicy).mp hmem
      exact hnone d huseful
  · rintro ⟨hcells, _⟩ d huseful
    have hlast : pass.input.length - 1 < pass.input.length :=
      Nat.sub_one_lt_of_lt hpass.nonempty
    have hempty := (hcells 0 _ (Nat.zero_le _) hlast).1
    apply SymbolWeights.eq_empty_iff.mp hempty d.root
    rw [mem_outside_run_iff hp hrules hpass (Nat.zero_le _) hlast hprior hpolicy hdivisor]
    exact huseful.isUsefulConstituent

end OutsidePass

end Passes

/-! ## Reading a finished chart -/

section Entries

variable {α : Type} {entries : List (Rule × α)} {rule : Rule}

theorem mem_keys_filter {keep : Rule → Bool} :
    (rule ∈ (entries.filter fun entry => keep entry.1).map Prod.fst) ↔
      keep rule = true ∧ rule ∈ entries.map Prod.fst := by
  simp only [List.mem_map, List.mem_filter]
  constructor
  · rintro ⟨entry, ⟨hentry, hkeep⟩, rfl⟩
    exact ⟨hkeep, entry, hentry, rfl⟩
  · rintro ⟨hkeep, entry, hentry, rfl⟩
    exact ⟨entry, ⟨hentry, hkeep⟩, rfl⟩

theorem mem_keys_binaryEntries :
    rule ∈ (binaryEntries entries).map Prod.fst ↔
      rule.isTerminal = false ∧ rule ∈ entries.map Prod.fst := by
  rw [← Bool.not_eq_true']
  exact @mem_keys_filter _ entries rule fun rule => !rule.isTerminal

theorem mem_keys_terminalEntries :
    rule ∈ (terminalEntries entries).map Prod.fst ↔
      rule.isTerminal = true ∧ rule ∈ entries.map Prod.fst :=
  mem_keys_filter

/-- Every entry is one of a binary or of a terminal rule. -/
theorem entries_eq_nil_iff :
    entries = [] ↔ binaryEntries entries = [] ∧ terminalEntries entries = [] := by
  constructor
  · rintro rfl
    exact ⟨rfl, rfl⟩
  · rintro ⟨hbinary, hterminal⟩
    rw [binaryEntries, List.filter_eq_nil_iff] at hbinary
    rw [terminalEntries, List.filter_eq_nil_iff] at hterminal
    rw [List.eq_nil_iff_forall_not_mem]
    intro entry hentry
    exact hbinary entry hentry (by simpa using hterminal entry hentry)

end Entries

namespace Chart

variable [Scalar K]

/-- No table of a finished chart stores a zero, and what its tables keep is useful. -/
structure KeepsUseful (chart : Chart S) (model : Model K) (prior : RootPrior K)
    (input : List Symbol) : Prop where
  cells : ∀ first last, first ≤ last → last < input.length →
    ∃ inside outside marginal, chart.inside first last = .ok inside ∧
      chart.outside first last = .ok outside ∧ chart.marginal first last = .ok marginal ∧
        (∀ entry ∈ inside.entries ++ outside.entries ++ marginal.entries, entry.2 ≠ 0) ∧
        ∀ x,
          (x ∈ inside.symbols ↔
            ∃ d, Derives model.policy input x first last d ∧ d.weight model ≠ (0 : S)) ∧
          (x ∈ outside.symbols ↔ IsUsefulConstituent S model prior input x first last) ∧
          (x ∈ marginal.symbols ↔ IsUsefulConstituent S model prior input x first last)
  roots : ∃ roots, chart.rootWeights = .ok roots ∧ ∀ entry ∈ roots.entries, entry.2 ≠ 0
  expectations : ∃ binary terminal, chart.binaryExpectations = .ok binary ∧
    chart.terminalExpectations = .ok terminal ∧
      (∀ entry ∈ binary ++ terminal, entry.2 ≠ 0) ∧
      ∀ rule,
        (rule ∈ binary.map Prod.fst ↔ rule.isTerminal = false ∧
          ∃ d : Derivation, d.IsUseful S model prior input ∧ rule ∈ d.rules) ∧
        (rule ∈ terminal.map Prod.fst ↔ rule.isTerminal = true ∧
          ∃ d : Derivation, d.IsUseful S model prior input ∧ rule ∈ d.rules)
  partition : ∃ partition, chart.partition = .ok partition ∧
    (partition = 0 ↔
      (∀ first last, first ≤ last → last < input.length →
        chart.outside first last = .ok .empty ∧ chart.marginal first last = .ok .empty) ∧
      chart.binaryExpectations = .ok [] ∧ chart.terminalExpectations = .ok [])

/-- After both passes over a nonempty input, among weights that do not cancel out, the
tables keep the useful constituents and rules, and nothing else. -/
theorem zero_skipping_keeps_useful [CommutativeWeights K S]
    (hdivisor : ∀ a b : S, a * b = 0 → a = 0 ∨ b = 0) {p : S → Prop}
    (hp : ZeroSumFree p) (model : Model K) (hpolicy : model.policy.Lawful)
    (hrules : ∀ rule, p (model.weigh rule)) (width : Nat) (width_pos : 0 < width)
    (prior : RootPrior K) (hprior : ∀ x, p (prior.weight x)) (input : List Symbol)
    (hinput : input ≠ []) :
    ∃ chart : Chart S,
      parseMarginal model width width_pos prior input = .ok chart ∧
        chart.KeepsUseful model prior input := by
  have hpass := InsidePass.complete_run (S := S) model hpolicy width width_pos hinput
  let pass : InsidePass S := .run model width width_pos input
  let full := OutsidePass.run model prior pass
  refine ⟨_, parseMarginal_eq model width width_pos prior hinput, ?_⟩
  constructor
  case cells =>
    intro first last hspan hlast
    obtain ⟨hin, hout, hmargin⟩ := reads_outsideDone hspan hlast
    have houtside := OutsidePass.holdsNonzero_outside_run hp hrules hpass hspan hlast hprior
    have hmarginal := OutsidePass.holdsNonzero_marginal_run hp hrules hpass hspan hlast hprior
    refine ⟨_, _, _, hin, hout, hmargin, ?_, fun x => ⟨?_, ?_, ?_⟩⟩
    · intro entry hentry
      rw [List.mem_append, List.mem_append] at hentry
      rcases hentry with (hentry | hentry) | hentry
      · exact (hpass.holdsNonzero hp hrules hspan hlast entry hentry).2
      · exact (houtside entry hentry).2
      · exact (hmarginal entry hentry).2
    · exact hpass.mem_symbols_iff hp hrules hspan hlast
    · exact OutsidePass.mem_outside_run_iff hp hrules hpass hspan hlast hprior hpolicy hdivisor
    · exact OutsidePass.mem_marginal_run_iff hp hrules hpass hspan hlast hprior hpolicy
  case roots =>
    exact ⟨_, rfl, fun entry hentry =>
      (OutsidePass.holdsNonzero_root_run hp hprior pass entry hentry).2⟩
  case expectations =>
    refine ⟨_, _, rfl, rfl, ?_, fun rule => ?_⟩
    · intro entry hentry
      have hmem : entry ∈ full.expectations.entries := by
        rcases List.mem_append.mp hentry with hentry | hentry
        · exact (List.mem_filter.mp hentry).1
        · exact (List.mem_filter.mp hentry).1
      exact (OutsidePass.holdsNonzero_expectations_run hp hrules hpass hprior entry hmem).2
    · have hkey : rule ∈ full.expectations.keys ↔ _ :=
        OutsidePass.mem_expectations_run_iff hp hrules hpass hprior hpolicy
      change (rule ∈ (binaryEntries full.expectations.entries).map Prod.fst ↔ _) ∧
        (rule ∈ (terminalEntries full.expectations.entries).map Prod.fst ↔ _)
      rw [mem_keys_binaryEntries, mem_keys_terminalEntries]
      exact ⟨and_congr_right' hkey, and_congr_right' hkey⟩
  case partition =>
    refine ⟨_, rfl, ?_⟩
    rw [OutsidePass.partition_run_eq_zero_iff hp hrules hpass hprior,
      OutsidePass.forall_not_isUseful_iff hp hrules hpass hprior hpolicy hdivisor,
      entries_eq_nil_iff]
    refine and_congr (forall₄_congr fun first last hspan hlast => ?_) ?_
    · change last < input.length at hlast
      rw [(reads_outsideDone hspan hlast).2.1, (reads_outsideDone hspan hlast).2.2,
        Except.ok.injEq, Except.ok.injEq]
    · change _ ↔ Except.ok (binaryEntries full.expectations.entries) = _ ∧
        Except.ok (terminalEntries full.expectations.entries) = _
      rw [Except.ok.injEq, Except.ok.injEq]

/-- Every word is a `⟨7⟩` too, but no rule makes anything of it: the outside pass and the
marginals do without it. -/
theorem zero_skipping_keeps_useful_three_words :
    ∃ chart : Chart (SumProduct ℚ),
      parseMarginal
          ⟨Policy.scan [⟨⟨0⟩, ⟨0⟩, ⟨0⟩, none⟩]
            [⟨⟨0⟩, [⟨1⟩], none⟩, ⟨⟨7⟩, [⟨1⟩], none⟩], fun _ => 1 / 2⟩ 1
          Nat.one_pos .uniform [⟨1⟩, ⟨1⟩, ⟨1⟩] = .ok chart ∧
        ∃ inside outside marginal, chart.inside 0 0 = .ok inside ∧
          chart.outside 0 0 = .ok outside ∧ chart.marginal 0 0 = .ok marginal ∧
            ⟨7⟩ ∈ inside.symbols ∧ ⟨7⟩ ∉ outside.symbols ∧ ⟨7⟩ ∉ marginal.symbols ∧
              ⟨0⟩ ∈ marginal.symbols := by
  let model : Model ℚ :=
    ⟨Policy.scan [⟨⟨0⟩, ⟨0⟩, ⟨0⟩, none⟩]
      [⟨⟨0⟩, [⟨1⟩], none⟩, ⟨⟨7⟩, [⟨1⟩], none⟩], fun _ => 1 / 2⟩
  have hdivisor : ∀ a b : SumProduct ℚ, a * b = 0 → a = 0 ∨ b = 0 := by
    intro a b hproduct
    exact (mul_eq_zero.mp (congrArg SumProduct.value hproduct)).imp
      (fun h => SumProduct.ext_value h) fun h => SumProduct.ext_value h
  have hhalf : (0 : ℚ) ≤ 1 / 2 := by decide +kernel
  have hone : (0 : ℚ) ≤ 1 := by decide +kernel
  obtain ⟨chart, hparse, hkeeps⟩ :=
    zero_skipping_keeps_useful hdivisor ZeroSumFree.zero_le model
      (Policy.scan_lawful (by decide) (by decide)) (fun _ => decide_eq_true hhalf) 1
      Nat.one_pos .uniform (fun _ => decide_eq_true hone) [⟨1⟩, ⟨1⟩, ⟨1⟩] (by decide)
  obtain ⟨inside, outside, marginal, hinside, houtside, hmarginal, _, hentries⟩ :=
    hkeeps.cells 0 0 (by decide) (by decide)
  have hnone : ¬ IsUsefulConstituent (SumProduct ℚ) model .uniform [⟨1⟩, ⟨1⟩, ⟨1⟩] ⟨7⟩ 0 0 := by
    rw [isUsefulConstituent_iff,
      show derivationsWith model.policy [⟨1⟩, ⟨1⟩, ⟨1⟩] ⟨7⟩ 0 0 = [] by decide +kernel]
    rintro ⟨d, hd, _⟩
    cases hd
  refine ⟨chart, hparse, inside, outside, marginal, hinside, houtside, hmarginal,
    (hentries ⟨7⟩).1.mpr ?_, fun h => hnone ((hentries ⟨7⟩).2.1.mp h),
    fun h => hnone ((hentries ⟨7⟩).2.2.mp h), (hentries ⟨0⟩).2.2.mpr ?_⟩
  · refine ⟨.leaf ⟨⟨7⟩, [⟨1⟩], none⟩, derives_leaf_iff.mpr ⟨rfl, by decide +kernel⟩,
      fun hzero => ?_⟩
    exact absurd (congrArg SumProduct.value hzero) (by decide +kernel)
  · let word : Derivation := .leaf ⟨⟨0⟩, [⟨1⟩], none⟩
    rw [isUsefulConstituent_iff]
    refine ⟨.node 0 ⟨⟨0⟩, ⟨0⟩, ⟨0⟩, none⟩ word
      (.node 0 ⟨⟨0⟩, ⟨0⟩, ⟨0⟩, none⟩ word word), by decide +kernel, fun hzero => ?_⟩
    exact absurd (congrArg SumProduct.value hzero) (by decide +kernel)

end Chart

end WeightedParsing
