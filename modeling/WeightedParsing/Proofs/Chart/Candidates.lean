import WeightedParsing.Proofs.Chart.BestTree

/-!
# Back-pointers are selected from candidates

The candidates of an entry are the terminal rules of its symbol for its span and the pairs
of a split and a binary rule over entries that weigh something.  The inside weight of the
entry, which sums them up, and the back-pointers, which a bounded heap keeps of them, are
filled side by side.  In the end the first back-pointer weighs what the entry weighs, an
entry without weight has none, and so every listed rule leads to entries with
back-pointers of their own.
-/

namespace WeightedParsing

variable {K S : Type} [WeightAlgebra K S]

/-- What tells the ways to build an entry apart. -/
def Backpointer.way (back : Backpointer S) : Nat × Rule := (back.split, back.rule)

/-- The ways to build an entry that weigh something, if narrower entries have the given
weights. -/
inductive Backpointer.Builds (model : Model K) (input : List Symbol)
    (inside : (first last : Nat) → SymbolWeights S) (x : Symbol) (first last : Nat) :
    Backpointer S → Prop where
  | terminal {rule : TerminalRule}
      (hrule : rule ∈ model.policy.terminalRules input first last)
      (hparent : rule.parent = x) (hweight : (model.weigh (.terminal rule) : S) ≠ 0) :
      Builds model input inside x first last
        ⟨0, .terminal rule, model.weigh (.terminal rule), model.weigh (.terminal rule)⟩
  | binary {split : Nat} {rule : BinaryRule} (hsplit : split < last - first)
      (hrule : rule ∈ model.policy.binaryRules first last split)
      (hparent : rule.parent = x)
      (hweight : model.weigh (.binary rule) * (inside first (first + split)).get rule.left *
        (inside (first + split + 1) last).get rule.right ≠ 0) :
      Builds model input inside x first last
        ⟨split, .binary rule,
          model.weigh (.binary rule) * (inside first (first + split)).get rule.left *
            (inside (first + split + 1) last).get rule.right,
          model.weigh (.binary rule)⟩

section Candidates

variable {model : Model K} {input : List Symbol}
  {inside : (first last : Nat) → SymbolWeights S} {x : Symbol} {first last : Nat}

theorem Backpointer.Builds.derivationWeight_ne_zero {back : Backpointer S}
    (h : back.Builds model input inside x first last) : back.derivationWeight ≠ 0 := by
  cases h with
  | terminal _ _ hweight => exact hweight
  | binary _ _ _ hweight => exact hweight

theorem mem_symbolBackpointers [LawfulWeights K S] (hpolicy : model.policy.Covering)
    (hspan : first ≤ last) (hlast : last < input.length) {back : Backpointer S} :
    back ∈ symbolBackpointers model input inside x first last ↔
      back.Builds model input inside x first last := by
  rw [symbolBackpointers, List.mem_filter, decide_eq_true_eq, mem_insideBackpointers,
    hpolicy.lexicalRules_eq hspan hlast]
  constructor
  · rintro ⟨⟨rule, hrule, hweight, rfl⟩ | ⟨split, hsplit, rule, hrule, hweight, rfl⟩,
      hparent⟩
    · exact .terminal hrule hparent hweight
    · exact .binary hsplit hrule hparent hweight
  · intro h
    cases h with
    | terminal hrule hparent hweight => exact ⟨.inl ⟨_, hrule, hweight, rfl⟩, hparent⟩
    | binary hsplit hrule hparent hweight =>
        exact ⟨.inr ⟨_, hsplit, _, hrule, hweight, rfl⟩, hparent⟩

/-- The split and the rule of a way by a binary rule. -/
def Backpointer.top? : Nat × Rule → Option (Nat × BinaryRule)
  | (_, .terminal _) => none
  | (split, .binary rule) => some (split, rule)

theorem way_of_mem_terminalBackpointers {back : Backpointer S}
    (hback : back ∈ terminalBackpointers model input first last) :
    ∃ rule, back.way = (0, .terminal rule) := by
  obtain ⟨rule, _, hsome⟩ := List.mem_filterMap.mp hback
  dsimp only at hsome
  split at hsome
  · cases hsome
  · cases hsome
    exact ⟨rule, rfl⟩

theorem nodup_way_terminalBackpointers (hpolicy : model.policy.Covering)
    (hspan : first ≤ last) (hlast : last < input.length) :
    ((terminalBackpointers model input first last : List (Backpointer S)).map
      Backpointer.way).Nodup := by
  rw [terminalBackpointers, hpolicy.lexicalRules_eq hspan hlast, List.Nodup,
    List.pairwise_map, List.pairwise_filterMap]
  refine (hpolicy.terminal_nodup input first last).imp ?_
  intro rule rule' hne back hback back' hback'
  dsimp only at hback hback'
  split at hback
  · cases hback
  split at hback'
  · cases hback'
  cases hback
  cases hback'
  simpa [Backpointer.way] using hne

theorem way_of_binaryBackpointer? {left right : SymbolWeights S} {split : Nat}
    {rule : BinaryRule} {back : Backpointer S}
    (hback : binaryBackpointer? model left right split rule = some back) :
    back.way = (split, .binary rule) := by
  unfold binaryBackpointer? at hback
  dsimp only at hback
  repeat' split at hback
  all_goals cases hback
  rfl

/-- No rule builds an entry twice at one split. -/
theorem nodup_way_insideBackpointers (hpolicy : model.policy.Covering)
    (hspan : first ≤ last) (hlast : last < input.length) :
    ((insideBackpointers model input inside first last).map Backpointer.way).Nodup := by
  rw [insideBackpointers, List.map_append, binaryBackpointers]
  simp only [List.filterMap_eq_flatMap_toList, List.map_flatMap]
  apply nodup_leaves_append_nodes Backpointer.top?
    (nodup_way_terminalBackpointers hpolicy hspan hlast)
  · intro way hway
    obtain ⟨back, hback, rfl⟩ := List.mem_map.mp hway
    obtain ⟨rule, hrule⟩ := way_of_mem_terminalBackpointers hback
    rw [hrule]
    rfl
  · intro split _
    exact hpolicy.binary_nodup first last split
  · intro split _ rule
    cases binaryBackpointer? model (inside first (first + split))
      (inside (first + split + 1) last) split rule with
    | none => exact List.nodup_nil
    | some back => exact List.nodup_singleton _
  · intro split rule way hway
    obtain ⟨back, hback, rfl⟩ := List.mem_map.mp hway
    rw [way_of_binaryBackpointer? (Option.mem_toList.mp hback)]
    rfl

end Candidates

/-! ## A finished pass -/

/-- What the back-pointers of an entry are to its candidates and to its inside weight. -/
structure IsBackpointerSelection (model : Model K) (input : List Symbol) (width : Nat)
    (inside : (first last : Nat) → SymbolWeights S)
    (backs : Symbol → (first last : Nat) → List (Backpointer S)) (x : Symbol)
    (first last : Nat) (candidates : List (Backpointer S)) : Prop where
  listing : IsListing candidates (Backpointer.Builds model input inside x first last)
  candidates_distinct : (candidates.map Backpointer.way).Nodup
  heaviest : Heaviest Backpointer.derivationWeight width candidates (backs x first last)
  distinct : ((backs x first last).map Backpointer.way).Nodup
  descending : Ranked.Descending Backpointer.derivationWeight (backs x first last)
  head_weight : ∀ back ∈ (backs x first last).head?,
    back.derivationWeight = (inside first last).get x
  eq_nil_iff : backs x first last = [] ↔ (inside first last).get x = 0
  terminal_words : ∀ back ∈ backs x first last, ∀ rule, back.rule = .terminal rule →
    inputSlice input first last = some rule.words
  binary_parts : ∀ back ∈ backs x first last, ∀ rule, back.rule = .binary rule →
    back.split < last - first ∧ backs rule.left first (first + back.split) ≠ [] ∧
      backs rule.right (first + back.split + 1) last ≠ []

namespace InsidePass

variable (model : Model K) (width : Nat) (width_pos : 0 < width) (input : List Symbol)
  {first last : Nat}

attribute [local instance] LawfulWeights.semiring

theorem get_inside_run_eq_sum_backpointers [LawfulWeights K S] (hspan : first ≤ last)
    (hlast : last < input.length) (x : Symbol) :
    ((run model width width_pos input : InsidePass S).inside first last).get x =
      ((symbolBackpointers model input (run model width width_pos input).inside x first
        last).map Backpointer.derivationWeight).sum := by
  rw [inside_run model width width_pos input hspan hlast, SymbolWeights.get_ofList,
    List.map_map, symbolBackpointers, sum_filter]
  simp only [Function.comp_def, decide_eq_true_eq]

variable [MaximumWeights K S]

/-- The heap of an entry and its inside weight agree on whether it has any weight. -/
theorem sortedBackpointers_eq_nil_iff (hpolicy : model.policy.Covering)
    (hspan : first ≤ last) (hlast : last < input.length) (x : Symbol) :
    (run model width width_pos input : InsidePass S).sortedBackpointers x first last = [] ↔
      ((run model width width_pos input : InsidePass S).inside first last).get x = 0 := by
  obtain ⟨hheaviest, _⟩ := heaviest_sortedBackpointers (S := S) model width width_pos input
    hspan hlast x
  rw [get_inside_run_eq_sum_backpointers model width width_pos input hspan hlast]
  constructor
  · intro hnil
    rw [hnil] at hheaviest
    rw [hheaviest.all_eq_nil width_pos]
    rfl
  · intro hzero
    rw [List.eq_nil_iff_forall_not_mem]
    intro back hback
    have hmem := hheaviest.mem hback
    exact ((mem_symbolBackpointers hpolicy hspan hlast).mp hmem).derivationWeight_ne_zero
      (eq_zero_of_sum_eq_zero hzero hmem)

theorem head_sortedBackpointers (hspan : first ≤ last) (hlast : last < input.length)
    {x : Symbol} {back : Backpointer S}
    (hback : back ∈ ((run model width width_pos input : InsidePass S).sortedBackpointers x
      first last).head?) :
    back.derivationWeight =
      ((run model width width_pos input : InsidePass S).inside first last).get x := by
  obtain ⟨hheaviest, hsorted⟩ := heaviest_sortedBackpointers (S := S) model width width_pos
    input hspan hlast x
  obtain ⟨rest, hrest⟩ := List.head?_eq_some_iff.mp hback
  rw [hrest] at hheaviest hsorted
  rw [get_inside_run_eq_sum_backpointers model width width_pos input hspan hlast]
  exact (sum_eq_of_isMax (hheaviest.mem List.mem_cons_self)
    (hheaviest.le_head hsorted)).symm

/-- The parts of an entry with weight have back-pointers, for a product that weighs
something has no factor without weight. -/
theorem sortedBackpointers_parts_ne_nil (hpolicy : model.policy.Covering)
    (hlast : last < input.length) {split : Nat} {rule : BinaryRule}
    (hsplit : split < last - first)
    (hweight : (model.weigh (.binary rule) : S) *
        ((run model width width_pos input).inside first (first + split)).get rule.left *
          ((run model width width_pos input).inside (first + split + 1) last).get
            rule.right ≠ 0) :
    (run model width width_pos input : InsidePass S).sortedBackpointers rule.left first
        (first + split) ≠ [] ∧
      (run model width width_pos input : InsidePass S).sortedBackpointers rule.right
        (first + split + 1) last ≠ [] := by
  constructor
  · rw [ne_eq, sortedBackpointers_eq_nil_iff model width width_pos input hpolicy (by omega)
      (by omega)]
    exact right_ne_zero_of_mul (left_ne_zero_of_mul hweight)
  · rw [ne_eq, sortedBackpointers_eq_nil_iff model width width_pos input hpolicy (by omega)
      hlast]
    exact right_ne_zero_of_mul hweight

theorem isBackpointerSelection_run (hpolicy : model.policy.Lawful) (hspan : first ≤ last)
    (hlast : last < input.length) (x : Symbol) :
    IsBackpointerSelection model input width
      (run model width width_pos input : InsidePass S).inside
      (run model width width_pos input : InsidePass S).sortedBackpointers x first last
      (symbolBackpointers model input
        (run model width width_pos input : InsidePass S).inside x first last) := by
  obtain ⟨hheaviest, hsorted⟩ := heaviest_sortedBackpointers (S := S) model width width_pos
    input hspan hlast x
  have hcovering := hpolicy.covering
  have hdistinct : ((symbolBackpointers model input
      (run model width width_pos input : InsidePass S).inside x first last).map
        Backpointer.way).Nodup :=
    (nodup_way_insideBackpointers hcovering hspan hlast).sublist
      (List.filter_sublist.map Backpointer.way)
  have hbuilds := fun back
      (hback : back ∈ (run model width width_pos input : InsidePass S).sortedBackpointers x
        first last) =>
    (mem_symbolBackpointers hcovering hspan hlast).mp (hheaviest.mem hback)
  constructor
  · exact ⟨hdistinct.of_map _, fun back => mem_symbolBackpointers hcovering hspan hlast⟩
  · exact hdistinct
  · exact hheaviest
  · exact hheaviest.nodup_map hdistinct
  · exact hsorted
  · intro back hback
    exact head_sortedBackpointers model width width_pos input hspan hlast hback
  · exact sortedBackpointers_eq_nil_iff model width width_pos input hcovering hspan hlast x
  · intro back hback rule hrule
    cases hbuilds back hback with
    | terminal hmem _ _ =>
        cases hrule
        exact hpolicy.terminal_exact input first last hspan hlast rule hmem
    | binary _ _ _ _ => cases hrule
  · intro back hback rule hrule
    cases hbuilds back hback with
    | terminal _ _ _ => cases hrule
    | binary hsplit _ _ hweight =>
        cases hrule
        exact ⟨hsplit, sortedBackpointers_parts_ne_nil model width width_pos input hcovering
          hlast hsplit hweight⟩

end InsidePass

namespace Chart

/-- After the inside pass the back-pointers of every entry are the heaviest ways to build
it, of which the first weighs as much as the entry. -/
theorem backpointers_are_heaviest_candidates [MaximumWeights K S] (model : Model K)
    (hpolicy : model.policy.Lawful) (width : Nat) (width_pos : 0 < width)
    (input : List Symbol) (hinput : input ≠ []) :
    ∃ (chart : Chart S) (inside : (first last : Nat) → SymbolWeights S)
      (backs : Symbol → (first last : Nat) → List (Backpointer S)),
      (blank input.length width width_pos).fillInside model input = .ok chart ∧
        ∀ x first last, first ≤ last → last < input.length →
          chart.inside first last = .ok (inside first last) ∧
            chart.backpointers x first last = .ok (backs x first last) ∧
            ∃ candidates, IsBackpointerSelection model input width inside backs x first last
              candidates := by
  refine ⟨_, (InsidePass.run model width width_pos input).inside,
    (InsidePass.run model width width_pos input).sortedBackpointers,
    fillInside_blank model width width_pos hinput, ?_⟩
  intro x first last hspan hlast
  exact ⟨answer_of_le hspan hlast _,
    backpointers_eq rfl MaximumWeights.selective hspan hlast x, _,
    InsidePass.isBackpointerSelection_run model width width_pos input hpolicy hspan hlast x⟩

/-- Three words fall into one and a compound in two ways of the same weight, and one
back-pointer is kept of them. -/
theorem backpointers_are_heaviest_candidates_three_words :
    ∃ (chart : Chart (MaxProduct Nat)) (back : Backpointer (MaxProduct Nat)),
      (blank 3 1 Nat.one_pos).fillInside compoundModel [⟨1⟩, ⟨1⟩, ⟨1⟩] = .ok chart ∧
        chart.backpointers ⟨0⟩ 0 2 = .ok [back] ∧ back.derivationWeight = ⟨5⟩ := by
  have hinput : ([⟨1⟩, ⟨1⟩, ⟨1⟩] : List Symbol) ≠ [] := by decide
  obtain ⟨chart, inside, backs, hfill, hentries⟩ :=
    backpointers_are_heaviest_candidates (S := MaxProduct Nat) compoundModel
      (Policy.scan_lawful (by decide) (by decide)) 1 Nat.one_pos [⟨1⟩, ⟨1⟩, ⟨1⟩] hinput
  obtain ⟨hinside, hread, candidates, hselection⟩ :=
    hentries ⟨0⟩ 0 2 (by decide) (by decide)
  obtain rfl := Except.ok.inj ((fillInside_blank (S := MaxProduct Nat) compoundModel 1
    Nat.one_pos hinput).symm.trans hfill)
  have hweight : (inside 0 2).get ⟨0⟩ = ⟨5⟩ := by
    rw [← Except.ok.inj hinside]
    exact MaxProduct.ext_value (by decide +kernel)
  have hne : backs ⟨0⟩ 0 2 ≠ [] := by
    rw [ne_eq, hselection.eq_nil_iff, hweight]
    exact fun hzero => absurd (congrArg MaxProduct.value hzero) (by decide)
  obtain ⟨_, _, hlength, _⟩ := hselection.heaviest
  obtain ⟨back, rest, hbacks⟩ := List.exists_cons_of_ne_nil hne
  have hrest : rest = [] := by
    rw [hbacks, List.length_cons] at hlength
    exact List.length_eq_zero_iff.mp (by omega)
  refine ⟨_, back, hfill, by rw [hread, hbacks, hrest], ?_⟩
  rw [hselection.head_weight back (by rw [hbacks]; rfl), hweight]

end Chart

end WeightedParsing
