import WeightedParsing.Proofs.Beam.Soundness

/-!
# Exact beams

A beam loses nothing if it has room for every derivation of its span that has weight.
Where this is so of all narrower spans, a beam is offered exactly the derivations of its
own span, and it overflows if they are too many.  A chart is therefore exact if and only if
the derivations of each span fit, and it then holds all of them.
-/

namespace WeightedParsing

variable {K S : Type} [WeightAlgebra K S]

/-- The derivations of a span that have weight, whatever their root. -/
def weightedDerivationsOver (S : Type) [WeightAlgebra K S] (model : Model K)
    (input : List Symbol) (first last : Nat) : List Derivation :=
  (derivationsOver model.policy input first last).filter (Derivation.hasWeight S model)

theorem isListing_weightedDerivationsOver [LawfulWeights K S] {model : Model K}
    (hpolicy : model.policy.Lawful) (input : List Symbol) (first last : Nat) :
    IsListing (weightedDerivationsOver S model input first last) fun d =>
      Derives model.policy input d.root first last d ∧ (d.weight model : S) ≠ 0 where
  nodup := (nodup_derivationsOver hpolicy input first last).filter _
  mem_iff := by
    intro d
    rw [weightedDerivationsOver, List.mem_filter, mem_derivationsOver,
      Derivation.hasWeight_iff]

/-! ## What a span is offered by complete beams -/

theorem joins_perm {split : Nat} {rule : BinaryRule}
    {lefts lefts' rights rights' : List Derivation} (hlefts : lefts.Perm lefts')
    (hrights : rights.Perm rights') :
    (joins split rule lefts rights).Perm (joins split rule lefts' rights') :=
  hlefts.flatMap fun left _ => hrights.map (Derivation.node split rule left)

theorem candidateDerivations_perm {model : Model K} {input : List Symbol}
    {held held' : (first last : Nat) → List Derivation} {first last : Nat}
    (h : ∀ split < last - first,
      (held first (first + split)).Perm (held' first (first + split)) ∧
        (held (first + split + 1) last).Perm (held' (first + split + 1) last)) :
    (candidateDerivations S model input held first last).Perm
      (candidateDerivations S model input held' first last) := by
  unfold candidateDerivations
  apply List.Perm.append_left
  apply (List.Perm.refl _).flatMap
  intro split hsplit
  obtain ⟨hleft, hright⟩ := h split (List.mem_range.mp hsplit)
  apply (List.Perm.refl _).flatMap
  intro rule _
  split
  · exact .nil
  · exact joins_perm (hleft.filter _) (hright.filter _)

section Integral

variable [IntegralWeights K S] {model : Model K} {input : List Symbol}

theorem filter_joins_of_isZero {split : Nat} {rule : BinaryRule}
    (hrule : (model.weigh (.binary rule) : S) = 0) (lefts rights : List Derivation) :
    (joins split rule lefts rights).filter (Derivation.hasWeight S model) = [] := by
  rw [List.filter_eq_nil_iff]
  intro d hd
  obtain ⟨left, _, right, _, rfl⟩ := mem_joins.mp hd
  rw [Derivation.hasWeight_iff, not_not, Derivation.weight, hrule,
    LawfulWeights.zero_mul, LawfulWeights.zero_mul]

/-- From all derivations of narrower spans a span gets all of its own. -/
theorem filter_candidateDerivations (hpolicy : model.policy.Covering) {first last : Nat}
    (hspan : first ≤ last) (hlast : last < input.length) :
    (candidateDerivations S model input (weightedDerivationsOver S model input) first
        last).filter (Derivation.hasWeight S model) =
      weightedDerivationsOver S model input first last := by
  rw [weightedDerivationsOver, derivationsOver_eq, candidateDerivations,
    hpolicy.lexicalRules_eq hspan hlast, List.filter_append, List.filter_append,
    List.filter_flatMap, List.filter_flatMap]
  congr 1
  apply List.flatMap_congr
  intro split _
  rw [List.filter_flatMap, List.filter_flatMap]
  apply List.flatMap_congr
  intro rule _
  by_cases hrule : (model.weigh (.binary rule) : S) = 0
  · rw [filter_joins_of_isZero hrule, if_pos (isZero_eq_true_iff.mpr hrule)]
    rfl
  · rw [if_neg (by simpa using hrule), filter_joins model hrule, filter_joins model hrule]
    unfold weightedDerivationsOver derivations
    simp only [List.filter_filter, Bool.and_comm, Bool.and_self_left]

theorem BeamChart.offered_perm (hpolicy : model.policy.Lawful) {first last : Nat}
    (hspan : first ≤ last) (hlast : last < input.length) {chart : BeamChart S}
    (hnarrower : ∀ s e, s ≤ e → e < input.length → e - s < last - first →
      (chart.held s e).Perm (weightedDerivationsOver S model input s e)) :
    (chart.offered model input first last).Perm
      (weightedDerivationsOver S model input first last) := by
  rw [← filter_candidateDerivations hpolicy hspan hlast, offered]
  apply List.Perm.filter
  apply candidateDerivations_perm
  intro split hsplit
  constructor
  · exact hnarrower first (first + split) (by omega) (by omega) (by omega)
  · exact hnarrower (first + split + 1) last (by omega) hlast (by omega)

end Integral

namespace BeamChart

section Run

variable [TotallyRanked S] (model : Model K) (beamSize : Nat)
  (beamSize_pos : 0 < beamSize) (input : List Symbol) {first last : Nat}

theorem held_perm_of_offered (hpolicy : model.policy.Lawful) (hspan : first ≤ last)
    (hlast : last < input.length)
    (hoffered : ((run model beamSize beamSize_pos input : BeamChart S).offered model input
      first last).Perm (weightedDerivationsOver S model input first last))
    (hfits : (weightedDerivationsOver S model input first last).length ≤ beamSize) :
    ((run model beamSize beamSize_pos input : BeamChart S).held first last).Perm
      (weightedDerivationsOver S model input first last) := by
  have hkept := (spells_run (S := S) model beamSize beamSize_pos input hpolicy hspan
    hlast).2
  rw [← hoffered.length_eq] at hfits
  exact (hkept.perm_of_length_le hfits).trans hoffered

variable [IntegralWeights K S]

theorem offered_run_perm (hpolicy : model.policy.Lawful) (hspan : first ≤ last)
    (hlast : last < input.length)
    (hfits : ∀ s e, s ≤ e → e < input.length → e - s < last - first →
      (weightedDerivationsOver S model input s e).length ≤ beamSize) :
    ((run model beamSize beamSize_pos input : BeamChart S).offered model input first
        last).Perm
      (weightedDerivationsOver S model input first last) := by
  induction hwidth : last - first using Nat.strong_induction_on
    generalizing first last with
  | _ width ih =>
      apply offered_perm hpolicy hspan hlast
      intro s e hse he hlt
      -- A narrower beam has room for all that it is offered, so it holds that.
      have hoffered := ih (e - s) (by omega) hse he
        (fun s' e' hse' he' hlt' => hfits s' e' hse' he' (by omega)) rfl
      exact held_perm_of_offered model beamSize beamSize_pos input hpolicy hse he hoffered
        (hfits s e hse he hlt)

/-- If the derivations of narrower spans fit, a beam overflows exactly when those of its
own span do not. -/
theorem overflowed_run_iff (hpolicy : model.policy.Lawful) (hspan : first ≤ last)
    (hlast : last < input.length)
    (hfits : ∀ s e, s ≤ e → e < input.length → e - s < last - first →
      (weightedDerivationsOver S model input s e).length ≤ beamSize) :
    ((run model beamSize beamSize_pos input : BeamChart S).cells.get first
        last).overflowed = true ↔
      beamSize < (weightedDerivationsOver S model input first last).length := by
  have hoffered := offered_run_perm (S := S) model beamSize beamSize_pos input hpolicy hspan
    hlast hfits
  rw [overflowed_run model beamSize beamSize_pos input hspan hlast,
    length_candidates_run model beamSize beamSize_pos input hpolicy hlast,
    hoffered.length_eq]

theorem isExact_run_iff (hpolicy : model.policy.Lawful) :
    (run model beamSize beamSize_pos input : BeamChart S).isExact = true ↔
      ∀ first last, first ≤ last → last < input.length →
        (weightedDerivationsOver S model input first last).length ≤ beamSize := by
  have hexact : (run model beamSize beamSize_pos input : BeamChart S).isExact = true ↔
      ∀ first last, first ≤ last → last < input.length →
        ¬((run model beamSize beamSize_pos input : BeamChart S).cells.get first
          last).overflowed = true := by
    unfold isExact
    rw [List.all_eq_true]
    constructor
    · intro h first last hspan hlast
      simpa using h (first, last) (mem_spansWidening.mpr ⟨hspan, hlast⟩)
    · intro h span hmem
      obtain ⟨hspan, hlast⟩ := mem_spansWidening.mp hmem
      simpa using h span.1 span.2 hspan hlast
  rw [hexact]
  constructor
  · intro h first last hspan hlast
    -- The flag of a span says something only once the narrower spans are known to fit.
    induction hwidth : last - first using Nat.strong_induction_on
      generalizing first last with
    | _ width ih =>
        have hoverflowed := overflowed_run_iff (S := S) model beamSize beamSize_pos input
          hpolicy hspan hlast
          fun s e hse he hlt => ih (e - s) (by omega) s e hse he rfl
        exact Nat.le_of_not_lt fun hlt =>
          h first last hspan hlast (hoverflowed.mpr hlt)
  · intro h first last hspan hlast hoverflowed
    have hlt := (overflowed_run_iff (S := S) model beamSize beamSize_pos input hpolicy hspan
      hlast fun s e hse he _ => h s e hse he).mp hoverflowed
    exact absurd (h first last hspan hlast) (Nat.not_le_of_lt hlt)

theorem held_run_perm_of_isExact (hpolicy : model.policy.Lawful)
    (hexact : (run model beamSize beamSize_pos input : BeamChart S).isExact = true)
    (hspan : first ≤ last) (hlast : last < input.length) :
    ((run model beamSize beamSize_pos input : BeamChart S).held first last).Perm
      (weightedDerivationsOver S model input first last) := by
  have hfits := (isExact_run_iff model beamSize beamSize_pos input hpolicy).mp hexact
  apply held_perm_of_offered model beamSize beamSize_pos input hpolicy hspan hlast
  · apply offered_run_perm model beamSize beamSize_pos input hpolicy hspan hlast
    intro s e hse he _
    exact hfits s e hse he
  · exact hfits first last hspan hlast

variable [Scalar K]

theorem exists_trees_run_of_isExact (hpolicy : model.policy.Lawful) (hinput : input ≠ [])
    (hexact : (run model beamSize beamSize_pos input : BeamChart S).isExact = true)
    (prior : RootPrior K) :
    ∃ derivations, (run model beamSize beamSize_pos input : BeamChart S).trees prior =
        derivations.map (Derivation.treeUnder model input prior) ∧
      IsListing derivations (fun d => d ∈ completeDerivations model.policy input ∧
        (d.weightUnder model prior : S) ≠ 0) ∧
      Ranked.Descending (Derivation.weightUnder (S := S) model prior) derivations := by
  have hpos := List.length_pos_of_ne_nil hinput
  have hlast : input.length - 1 < input.length := by omega
  obtain ⟨derivations, htrees, hperm, _, hsorted⟩ :=
    exists_trees_run_eq (S := S) model beamSize beamSize_pos input hpolicy hinput prior
  have hheld := held_run_perm_of_isExact model beamSize beamSize_pos input hpolicy hexact
    (Nat.zero_le _) hlast
  have hall := hperm.trans (hheld.filter (Derivation.hasWeightUnder S model prior))
  have hlisting := isListing_weightedDerivationsOver (S := S) hpolicy input 0
    (input.length - 1)
  refine ⟨derivations, htrees, ⟨?_, ?_⟩, hsorted⟩
  · exact hall.nodup_iff.mpr (hlisting.nodup.filter _)
  · intro d
    rw [hall.mem_iff, List.mem_filter, hlisting.mem_iff, Derivation.hasWeightUnder_iff,
      mem_completeDerivations]
    constructor
    · rintro ⟨⟨hderives, _⟩, hunder⟩
      exact ⟨hderives, hunder⟩
    · rintro ⟨hderives, hunder⟩
      refine ⟨⟨hderives, ?_⟩, hunder⟩
      intro hzero
      rw [Derivation.weightUnder, hzero] at hunder
      exact hunder (LawfulWeights.zero_mul _)

end Run

/-! ## What an exact chart holds -/

/-- The entries of a beam are all derivations of its span that have weight, one to one. -/
structure EntriesAreAll (chart : BeamChart S) (model : Model K) (input : List Symbol)
    (first last : Nat) (entries : List (BeamEntry S × S)) (derivations : List Derivation) :
    Prop where
  read : chart.entries first last = .ok entries
  listing : IsListing derivations fun d =>
    Derives model.policy input d.root first last d ∧ (d.weight model : S) ≠ 0
  length_eq : entries.length = derivations.length
  entry_spec : ∀ (position : Nat) (d : Derivation), derivations[position]? = some d →
    ∃ entry, entries[position]? = some (entry, d.weight model) ∧ entry.root = d.root ∧
      chart.tree first last position = .ok (some (d.tree model first last))

/-- The trees of a chart are all derivations of the whole input that have weight under a
prior, the heaviest first. -/
structure TreesAreAll [Scalar K] (chart : BeamChart S) (model : Model K)
    (input : List Symbol) (prior : RootPrior K) (derivations : List Derivation) :
    Prop where
  trees_eq : chart.trees prior = derivations.map fun d =>
    (d.tree model 0 (input.length - 1)).multiply (prior.weight d.root)
  listing : IsListing derivations fun d =>
    Derives model.policy input d.root 0 (input.length - 1) d ∧
      d.weight model * (prior.weight d.root : S) ≠ 0
  nodup : (chart.trees prior).Nodup
  descending : Ranked.Descending ParseTree.weight (chart.trees prior)

theorem Spells.entriesAreAll [LawfulWeights K S] {chart : BeamChart S} {model : Model K}
    {input : List Symbol} {first last : Nat} {derivations : List Derivation}
    (h : chart.Spells model input first last derivations)
    (hpolicy : model.policy.Lawful) (hspan : first ≤ last) (hlast : last < chart.length)
    (hall : derivations.Perm (weightedDerivationsOver S model input first last)) :
    chart.EntriesAreAll model input first last
      (chart.cells.get first last).heap.toList derivations := by
  have hlisting := isListing_weightedDerivationsOver (S := S) hpolicy input first last
  have hlength : (chart.cells.get first last).heap.toList.length = derivations.length := by
    rw [h.length_eq]
    exact Array.length_toList
  constructor
  · exact entries_eq hspan hlast
  · constructor
    · exact h.nodup
    · intro d
      rw [hall.mem_iff, hlisting.mem_iff]
  · exact hlength
  · intro position d hd
    have hlt : position < (chart.cells.get first last).heap.toList.length := by
      rw [hlength]
      exact (List.getElem?_eq_some_iff.mp hd).1
    obtain ⟨⟨entry, weight⟩, hentry⟩ :
        ∃ pair, (chart.cells.get first last).heap.toList[position]? = some pair :=
      ⟨_, List.getElem?_eq_getElem hlt⟩
    obtain ⟨d', hd', hroot, hweight⟩ := h.exists_of_entry hentry
    obtain rfl := Option.some.inj (hd.symm.trans hd')
    refine ⟨entry, ?_, hroot.symm, ?_⟩
    · rw [hentry, hweight]
    · rw [tree_eq hspan hlast, (h.spellsAt position d hd).treeAt_eq]

theorem isOptimum_of_trees_eq [SelectiveWeights K S] [Scalar K] {chart : BeamChart S}
    {model : Model K} {input : List Symbol} {prior : RootPrior K}
    {derivations : List Derivation} {weights : SymbolWeights S}
    (hinside : ∀ x, weights.get x = derivationSum model input x 0 (input.length - 1))
    (htrees : chart.trees prior = derivations.map (Derivation.treeUnder model input prior))
    (hlisting : IsListing derivations fun d => d ∈ completeDerivations model.policy input ∧
      (d.weightUnder model prior : S) ≠ 0)
    (hsorted : Ranked.Descending (Derivation.weightUnder (S := S) model prior) derivations)
    {tree : ParseTree S} {rest : List (ParseTree S)}
    (hfirst : chart.trees prior = tree :: rest) :
    IsOptimum weights prior tree.weight := by
  rw [htrees, List.map_eq_cons_iff] at hfirst
  obtain ⟨best, others, rfl, rfl, rfl⟩ := hfirst
  rw [Derivation.weight_treeUnder]
  have hbest := (hlisting.mem_iff best).mp List.mem_cons_self
  apply isOptimum_of hinside
  · intro d hd
    by_cases hzero : (d.weightUnder model prior : S) = 0
    · rw [hzero]
      exact MaximumWeights.zero_le _
    · exact hsorted.le_head ((hlisting.mem_iff d).mpr ⟨hd, hzero⟩)
  · exact .inr ⟨best, hbest.1, rfl⟩

/-- A beam chart is exact if and only if the derivations of every span fit into its beam.
It then holds all of them, and its trees are all derivations of the whole input. -/
theorem isExact_iff_derivations_fit [IntegralWeights K S] [TotallyRanked S] [Scalar K]
    (model : Model K) (hpolicy : model.policy.Lawful) (beamSize : Nat)
    (beamSize_pos : 0 < beamSize) (input : List Symbol) :
    (∀ first last, IsListing (weightedDerivationsOver S model input first last) fun d =>
      Derives model.policy input d.root first last d ∧ (d.weight model : S) ≠ 0) ∧
    ((run model beamSize beamSize_pos input : BeamChart S).isExact = true ↔
      ∀ first last, first ≤ last → last < input.length →
        (weightedDerivationsOver S model input first last).length ≤ beamSize) ∧
    ((run model beamSize beamSize_pos input : BeamChart S).isExact = true →
      (∀ first last, first ≤ last → last < input.length →
        ∃ entries derivations, (run model beamSize beamSize_pos input :
          BeamChart S).EntriesAreAll model input first last entries derivations) ∧
      ∀ prior : RootPrior K,
        (input = [] →
          (run model beamSize beamSize_pos input : BeamChart S).trees prior = []) ∧
        (input ≠ [] →
          (∃ derivations, (run model beamSize beamSize_pos input :
            BeamChart S).TreesAreAll model input prior derivations) ∧
          ∀ (_ : SelectiveWeights K S) (width : Nat) (width_pos : 0 < width),
            ∃ (exact : Chart S) (weights : SymbolWeights S),
              Chart.parseInside model width width_pos input = .ok exact ∧
                exact.inside 0 (input.length - 1) = .ok weights ∧
                ∀ tree rest, (run model beamSize beamSize_pos input).trees prior =
                    tree :: rest →
                  IsOptimum weights prior tree.weight)) := by
  refine ⟨isListing_weightedDerivationsOver hpolicy input,
    isExact_run_iff model beamSize beamSize_pos input hpolicy, ?_⟩
  intro hexact
  refine ⟨?_, ?_⟩
  · intro first last hspan hlast
    exact ⟨_, _, (spells_run model beamSize beamSize_pos input hpolicy hspan
      hlast).1.entriesAreAll hpolicy hspan hlast
      (held_run_perm_of_isExact model beamSize beamSize_pos input hpolicy hexact hspan
        hlast)⟩
  · intro prior
    refine ⟨?_, ?_⟩
    · rintro rfl
      exact trees_eq_nil rfl prior
    · intro hinput
      obtain ⟨derivations, htrees, hlisting, hsorted⟩ := exists_trees_run_of_isExact
        (S := S) model beamSize beamSize_pos input hpolicy hinput hexact prior
      refine ⟨⟨derivations, htrees, ?_, ?_, ?_⟩, ?_⟩
      · constructor
        · exact hlisting.nodup
        · intro d
          rw [hlisting.mem_iff, mem_completeDerivations]
          rfl
      · rw [htrees]
        apply nodup_map_treeUnder prior hlisting.nodup
        intro d hd
        exact ((hlisting.mem_iff d).mp hd).1
      · exact descending_trees htrees hsorted
      · intro _ width width_pos
        obtain ⟨exact, weights, hparse, hread, hinside⟩ :=
          Chart.exists_parseInside (S := S) hpolicy width width_pos hinput
        refine ⟨exact, weights, hparse, hread, ?_⟩
        intro tree rest hfirst
        exact isOptimum_of_trees_eq hinside htrees hlisting hsorted hfirst

/-- Three words have four derivations, which fit into a beam of four and not into one of
three. -/
theorem isExact_iff_derivations_fit_three_words :
    ∃ (chart : BeamChart (MaxProduct Nat)) (entries : List _),
      run Chart.compoundModel 4 (by decide) [⟨1⟩, ⟨1⟩, ⟨1⟩] = chart ∧
        chart.isExact = true ∧ chart.entries 0 2 = .ok entries ∧ entries.length = 4 ∧
        ¬(run Chart.compoundModel 3 (by decide) [⟨1⟩, ⟨1⟩, ⟨1⟩] :
          BeamChart (MaxProduct Nat)).isExact = true := by
  have hpolicy : Chart.compoundModel.policy.Lawful :=
    Policy.scan_lawful (by decide) (by decide)
  obtain ⟨hlisting, hexact, hholds⟩ := isExact_iff_derivations_fit (S := MaxProduct Nat)
    Chart.compoundModel hpolicy 4 (by decide) [⟨1⟩, ⟨1⟩, ⟨1⟩]
  obtain ⟨_, hnarrow, _⟩ := isExact_iff_derivations_fit (S := MaxProduct Nat)
    Chart.compoundModel hpolicy 3 (by decide) [⟨1⟩, ⟨1⟩, ⟨1⟩]
  have hcounts : ∀ last < 3, ∀ first ≤ last,
      (weightedDerivationsOver (MaxProduct Nat) Chart.compoundModel [⟨1⟩, ⟨1⟩, ⟨1⟩] first
        last).length ≤ 4 := by
    decide +kernel
  have hwhole : (weightedDerivationsOver (MaxProduct Nat) Chart.compoundModel
      [⟨1⟩, ⟨1⟩, ⟨1⟩] 0 2).length = 4 := by
    decide +kernel
  have hfull := hexact.mpr fun first last hspan hlast => hcounts last hlast first hspan
  obtain ⟨entries, derivations, hentries⟩ := (hholds hfull).1 0 2 (by decide) (by decide)
  refine ⟨_, entries, rfl, hfull, hentries.read, ?_, ?_⟩
  · have hsame : derivations.Perm
        (weightedDerivationsOver (MaxProduct Nat) Chart.compoundModel [⟨1⟩, ⟨1⟩, ⟨1⟩] 0
          2) := by
      rw [List.perm_ext_iff_of_nodup hentries.listing.nodup (hlisting 0 2).nodup]
      intro d
      rw [hentries.listing.mem_iff, (hlisting 0 2).mem_iff]
    rw [hentries.length_eq, hsame.length_eq, hwhole]
  · intro hthree
    have hle := hnarrow.mp hthree 0 2 (by decide) (by decide)
    rw [hwhole] at hle
    exact absurd hle (by decide)

end BeamChart

end WeightedParsing
