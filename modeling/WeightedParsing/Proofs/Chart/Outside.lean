import WeightedParsing.Proofs.Chart.Inside
import WeightedParsing.Proofs.Derivation.ContextSum

/-!
# Outside weights as sums over contexts

A finished outside pass satisfies the equation that sums over contexts satisfy,
but for what it skips: the root starts with symbols that have an inside entry,
and a rule is not followed if its parent has no outside weight or a child has no
inside weight.  What is skipped weighs nothing in a complete derivation, unless
weights have cancelled out before.
-/

namespace WeightedParsing

variable {K S : Type} [WeightAlgebra K S]

/-- What the outside pass needs of an inside pass over the same input. -/
structure InsidePass.Complete [LawfulWeights K S] (model : Model K)
    (pass : InsidePass S) : Prop where
  nonempty : 0 < pass.input.length
  size_cells : pass.cells.size = pass.input.length
  get_inside : ∀ first last, first ≤ last → last < pass.input.length → ∀ x,
    (pass.inside first last).get x = derivationSum model pass.input x first last
  exists_of_mem : ∀ first last, first ≤ last → last < pass.input.length → ∀ x,
    x ∈ (pass.inside first last).symbols → ∃ d,
      Derives model.policy pass.input x first last d ∧ d.weight model ≠ (0 : S)

theorem InsidePass.complete_run [LawfulWeights K S] (model : Model K)
    (hpolicy : model.policy.Covering) (width : Nat) (width_pos : 0 < width)
    {input : List Symbol} (hinput : input ≠ []) :
    (run model width width_pos input : InsidePass S).Complete model where
  nonempty := List.length_pos_iff.mpr hinput
  size_cells := SpanTable.size_sweep _
  get_inside := fun _ _ hspan hlast =>
    get_inside_run_eq_derivationSum model hpolicy width width_pos input hspan hlast
  exists_of_mem := by
    let _ := LawfulWeights.semiring (K := K) (S := S)
    intro first last hspan hlast x hx
    change last < input.length at hlast
    rw [inside_run model width width_pos input hspan hlast,
      SymbolWeights.mem_symbols_ofList] at hx
    obtain ⟨weight, hmem, hne⟩ := hx
    obtain ⟨back, hback, heq⟩ := List.mem_map.mp hmem
    obtain ⟨rfl, rfl⟩ := Prod.mk.inj heq
    rcases mem_insideBackpointers.mp hback with
      ⟨rule, hrule, _, rfl⟩ | ⟨split, hsplit, rule, hrule, _, rfl⟩
    · rw [hpolicy.lexicalRules_eq hspan hlast] at hrule
      exact ⟨.leaf rule, .leaf hrule, hne⟩
    · by_contra hnone
      apply hne
      change model.weigh (.binary rule) * _ * _ = (0 : S)
      rw [get_inside_run_eq_derivationSum model hpolicy width width_pos input
          (by omega) (by omega),
        get_inside_run_eq_derivationSum model hpolicy width width_pos input
          (by omega) hlast, derivationSum, derivationSum, sum_mul_sum]
      apply sum_map_eq_zero
      intro left hleft
      apply sum_map_eq_zero
      intro right hright
      by_contra hweight
      exact hnone ⟨_, .node hsplit hrule (mem_derivations.mp hleft)
        (mem_derivations.mp hright), hweight⟩

section Equation

theorem outsideShares_congr (model : Model K)
    (inside : (first last : Nat) → SymbolWeights S) (length : Nat) {first last : Nat}
    (hlast : last < length) {outside outside' : (first last : Nat) → SymbolWeights S}
    (h : ∀ s e, s ≤ e → e < length → last - first < e - s →
      outside s e = outside' s e) :
    outsideShares model inside outside length first last =
      outsideShares model inside outside' length first last := by
  unfold outsideShares
  apply List.flatMap_congr
  intro i hi
  rw [List.mem_range] at hi
  unfold sharesFromWidth
  congr 1
  · split
    · unfold ruleUses
      rw [h (last - (length - 1 - i)) last (by omega) hlast (by omega)]
    · rfl
  · split
    · rename_i hwide
      unfold ruleUses
      rw [h first (first + (length - 1 - i)) (by omega) hwide (by omega)]
    · rfl

/-- A span gains from the uses of rules over wider spans in which it is a child. -/
theorem exists_use_of_mem_shares {model : Model K}
    {inside outside : (first last : Nat) → SymbolWeights S} {length first last : Nat}
    (hspan : first ≤ last) {share : Symbol × S}
    (h : share ∈ outsideShares model inside outside length first last) :
    ∃ s e split use, last - first < e - s ∧ split < e - s ∧ (last < length → e < length) ∧
      use ∈ ruleUses model inside outside s e split ∧
        ((first = s ∧ last = s + split ∧ share = use.leftShare) ∨
          (first = s + split + 1 ∧ last = e ∧ share = use.rightShare)) := by
  obtain ⟨i, hi, h⟩ := List.mem_flatMap.mp h
  rw [List.mem_range] at hi
  rw [sharesFromWidth, List.mem_append, List.mem_ite_nil_right,
    List.mem_ite_nil_right] at h
  rcases h with ⟨hwidth, h⟩ | ⟨hwidth, h⟩
  · obtain ⟨use, huse, rfl⟩ := List.mem_map.mp h
    exact ⟨_, _, _, use, by omega, by omega, id, huse,
      .inr ⟨by omega, rfl, rfl⟩⟩
  · obtain ⟨use, huse, rfl⟩ := List.mem_map.mp h
    exact ⟨_, _, _, use, by omega, by omega, fun _ => hwidth, huse,
      .inl ⟨rfl, by omega, rfl⟩⟩

theorem OutsidePass.outside_run [Scalar K] (model : Model K) (prior : RootPrior K)
    (pass : InsidePass S) {first last : Nat} (hspan : first ≤ last)
    (hlast : last < pass.input.length) :
    (run model prior pass).outside.get first last =
      if last - first + 1 = pass.input.length then (run model prior pass).root
      else .ofList (outsideShares model pass.inside (run model prior pass).outside.get
        pass.input.length first last) := by
  change (outsideCells model (run model prior pass).root pass.inside
    pass.input.length).get first last = _
  unfold outsideCells
  rw [SpanTable.get_sweep_narrowing hspan hlast]
  · rfl
  · intro look look' hlook
    split
    · rfl
    · rw [outsideShares_congr model pass.inside _ hlast hlook]

attribute [local instance] LawfulWeights.semiring

variable [CommutativeWeights K S]

theorem OutsidePass.get_root_run [Scalar K] (model : Model K) (prior : RootPrior K)
    (pass : InsidePass S) (x : Symbol) :
    (run model prior pass).root.get x =
      if x ∈ (pass.inside 0 (pass.input.length - 1)).symbols then prior.weight x
      else 0 :=
  SymbolWeights.get_ofList_map (OrderedTable.nodup_keys _) prior.weight x

theorem sum_rightShares (model : Model K)
    (inside outside : (first last : Nat) → SymbolWeights S)
    (first last split : Nat) (x : Symbol)
    (hx : (inside (first + split + 1) last).get x ≠ 0) :
    (((ruleUses model inside outside first last split).map RuleUse.rightShare).map
        fun share => if share.1 = x then share.2 else 0).sum =
      ((model.policy.binaryRules first last split).map fun rule =>
        if rule.right = x then
          (outside first last).get rule.parent *
            (model.weigh (.binary rule) *
              (inside first (first + split)).get rule.left)
        else 0).sum := by
  have hcomm := CommutativeWeights.mul_comm (K := K) (S := S)
  unfold ruleUses
  rw [List.map_map, sum_filterMap]
  congr 2
  funext rule
  by_cases hparent : (outside first last).get rule.parent = 0
  · simp [hparent]
  by_cases hleft : (inside first (first + split)).get rule.left = 0
  · simp [hleft]
  by_cases hright : (inside (first + split + 1) last).get rule.right = 0
  · have hne : rule.right ≠ x := by
      intro h
      exact hx (h ▸ hright)
    simp [hright, hne]
  · simp [hparent, hleft, hright, RuleUse.rightShare, hcomm]

theorem sum_leftShares (model : Model K)
    (inside outside : (first last : Nat) → SymbolWeights S)
    (first last split : Nat) (x : Symbol)
    (hx : (inside first (first + split)).get x ≠ 0) :
    (((ruleUses model inside outside first last split).map RuleUse.leftShare).map
        fun share => if share.1 = x then share.2 else 0).sum =
      ((model.policy.binaryRules first last split).map fun rule =>
        if rule.left = x then
          (outside first last).get rule.parent *
            (model.weigh (.binary rule) *
              (inside (first + split + 1) last).get rule.right)
        else 0).sum := by
  have hcomm := CommutativeWeights.mul_comm (K := K) (S := S)
  unfold ruleUses
  rw [List.map_map, sum_filterMap]
  congr 2
  funext rule
  by_cases hparent : (outside first last).get rule.parent = 0
  · simp [hparent]
  by_cases hright : (inside (first + split + 1) last).get rule.right = 0
  · simp [hright]
  by_cases hleft : (inside first (first + split)).get rule.left = 0
  · have hne : rule.left ≠ x := by
      intro h
      exact hx (h ▸ hleft)
    simp [hleft, hne]
  · simp [hparent, hleft, hright, RuleUse.leftShare, hcomm]

/-- A rule is used where its parent has outside weight and its children have inside
weight. -/
theorem mem_ruleUses {model : Model K}
    {inside outside : (first last : Nat) → SymbolWeights S}
    {first last split : Nat} {use : RuleUse S} :
    use ∈ ruleUses model inside outside first last split ↔
      ∃ rule ∈ model.policy.binaryRules first last split,
        (outside first last).get rule.parent ≠ 0 ∧
          (inside first (first + split)).get rule.left ≠ 0 ∧
            (inside (first + split + 1) last).get rule.right ≠ 0 ∧
              use = ⟨rule, model.weigh (.binary rule),
                (inside first (first + split)).get rule.left,
                (inside (first + split + 1) last).get rule.right,
                (outside first last).get rule.parent⟩ := by
  unfold ruleUses
  rw [List.mem_filterMap]
  apply exists_congr
  intro rule
  rw [and_congr_right_iff]
  intro _
  by_cases hparent : (outside first last).get rule.parent = 0
  · simp [hparent]
  by_cases hleft : (inside first (first + split)).get rule.left = 0
  · simp [hleft]
  by_cases hright : (inside (first + split + 1) last).get rule.right = 0
  · simp [hright]
  · rw [if_neg (by simpa using hparent), if_neg (by simp [hleft, hright]),
      Option.some.injEq]
    exact ⟨fun h => ⟨hparent, hleft, hright, h.symm⟩, fun h => h.2.2.2.symm⟩

theorem get_ne_zero_of_mem_shares {model : Model K}
    {inside outside : (first last : Nat) → SymbolWeights S} {length first last : Nat}
    (hspan : first ≤ last) {share : Symbol × S}
    (h : share ∈ outsideShares model inside outside length first last) :
    (inside first last).get share.1 ≠ 0 := by
  obtain ⟨s, e, split, use, _, _, _, huse, hchild⟩ := exists_use_of_mem_shares hspan h
  obtain ⟨rule, _, _, hleft, hright, rfl⟩ := mem_ruleUses.mp huse
  rcases hchild with ⟨rfl, rfl, rfl⟩ | ⟨rfl, rfl, rfl⟩
  · exact hleft
  · exact hright

theorem OutsidePass.get_outside_run [Scalar K] {model : Model K} {pass : InsidePass S}
    (hpass : pass.Complete model) (prior : RootPrior K) {first last : Nat}
    (hspan : first ≤ last) (hlast : last < pass.input.length)
    (hpart : last - first + 1 ≠ pass.input.length) {x : Symbol}
    (hx : derivationSum model pass.input x first last ≠ (0 : S)) :
    ((run model prior pass).outside.get first last).get x =
      outerGain model pass.input
        (fun y s e => ((run model prior pass).outside.get s e).get y) x first last := by
  rw [outside_run model prior pass hspan hlast, if_neg hpart,
    SymbolWeights.get_ofList, outsideShares, sum_flatMap, outerGain]
  rw [← hpass.get_inside first last hspan hlast] at hx
  congr 1
  apply List.map_congr_left
  intro i hi
  rw [List.mem_range] at hi
  rw [sharesFromWidth, List.map_append, List.sum_append, widthGain]
  congr 1
  · split
    · rename_i hwidth
      have hstart : last - (pass.input.length - 1 - i) +
          (first - 1 - (last - (pass.input.length - 1 - i))) + 1 = first := by omega
      rw [sum_rightShares]
      · rw [rightGain]
        congr 2
        funext rule
        rw [hpass.get_inside _ _ (by omega) (by omega)]
      · rwa [hstart]
    · rfl
  · split
    · rename_i hwidth
      rw [sum_leftShares]
      · rw [leftGain]
        congr 2
        funext rule
        rw [hpass.get_inside _ _ (by omega) (by omega)]
      · rwa [Nat.add_sub_cancel' hspan]
    · rfl

end Equation

/-! ## Multipliers -/

attribute [local instance] LawfulWeights.semiring

variable [CommutativeWeights K S]

/-- A family of weights of constituents that vanish where the inside weight does,
and that may be handed on to a parent together with the rule and the sibling. -/
structure Multiplier (model : Model K) (input : List Symbol)
    (M : Symbol → Nat → Nat → S → Prop) : Prop where
  eq_zero : ∀ {x first last m}, first ≤ last → last < input.length →
    M x first last m → derivationSum model input x first last = (0 : S) → m = 0
  of_left : ∀ {first last split rule m}, split < last - first → last < input.length →
    rule ∈ model.policy.binaryRules first last split →
      M rule.left first (first + split) m →
        M rule.parent first last
          (m * (model.weigh (.binary rule) *
            derivationSum model input rule.right (first + split + 1) last))
  of_right : ∀ {first last split rule m}, split < last - first → last < input.length →
    rule ∈ model.policy.binaryRules first last split →
      M rule.right (first + split + 1) last m →
        M rule.parent first last
          (m * (model.weigh (.binary rule) *
            derivationSum model input rule.left first (first + split)))

/-- Times a multiplier, an outside weight is the sum over all contexts. -/
theorem Multiplier.mul_outside [Scalar K] {model : Model K} {pass : InsidePass S}
    {M : Symbol → Nat → Nat → S → Prop} (hM : Multiplier model pass.input M)
    (hpass : pass.Complete model) (prior : RootPrior K) {first last : Nat}
    (hspan : first ≤ last) (hlast : last < pass.input.length) {x : Symbol} {m : S}
    (hm : M x first last m) :
    m * ((OutsidePass.run model prior pass).outside.get first last).get x =
      m * contextSum model pass.input prior x first last := by
  induction hwidth : pass.input.length - (last - first) using Nat.strong_induction_on
    generalizing first last x m with
  | _ w ih =>
      by_cases hx : derivationSum model pass.input x first last = (0 : S)
      · rw [hM.eq_zero hspan hlast hm hx, zero_mul, zero_mul]
      rw [contextSum_eq]
      by_cases hwhole : last - first + 1 = pass.input.length
      · obtain ⟨rfl, rfl⟩ : first = 0 ∧ last = pass.input.length - 1 := by omega
        have hmem : x ∈ (pass.inside 0 (pass.input.length - 1)).symbols := by
          by_contra hmem
          rw [← hpass.get_inside _ _ hspan hlast] at hx
          exact hx (SymbolWeights.get_eq_zero_of_not_mem hmem)
        have hgain : outerGain model pass.input
            (contextSum model pass.input prior : Symbol → Nat → Nat → S) x 0
              (pass.input.length - 1) = 0 := by
          simp [outerGain]
        rw [OutsidePass.outside_run model prior pass hspan hlast, if_pos hwhole,
          OutsidePass.get_root_run, if_pos hmem, if_pos hwhole, hgain, add_zero]
      · rw [OutsidePass.get_outside_run hpass prior hspan hlast hwhole hx,
          if_neg hwhole, zero_add, outerGain, outerGain, ← List.sum_map_mul_left,
          ← List.sum_map_mul_left]
        congr 1
        apply List.map_congr_left
        intro i hi
        rw [List.mem_range] at hi
        rw [widthGain, widthGain, mul_add, mul_add]
        congr 1
        · split
          · unfold rightGain
            apply mul_sum_ite_congr
            intro rule hrule hright
            refine ih _ ?_ (by omega) hlast (hM.of_right (by omega) hlast hrule ?_) rfl
            · omega
            · subst hright
              rwa [show last - (pass.input.length - 1 - i) +
                (first - 1 - (last - (pass.input.length - 1 - i))) + 1 = first by omega]
          · rfl
        · split
          · rename_i hwide
            unfold leftGain
            apply mul_sum_ite_congr
            intro rule hrule hleft
            refine ih _ ?_ (by omega) hwide (hM.of_left (by omega) hwide hrule ?_) rfl
            · omega
            · subst hleft
              rwa [Nat.add_sub_cancel' hspan]
          · rfl

/-! ## Weights that do not cancel out -/

/-- Weights of derivations sum to zero only if each of them is zero. -/
def NoCancellation (S : Type) [WeightAlgebra K S] [LawfulWeights K S]
    (model : Model K) (input : List Symbol) : Prop :=
  ∀ x first last, first ≤ last → last < input.length →
    derivationSum model input x first last = (0 : S) →
      ∀ d, Derives model.policy input x first last d → d.weight model = (0 : S)

theorem ZeroSumFree.noCancellation {p : S → Prop} (hp : ZeroSumFree p) {model : Model K}
    (hrules : ∀ rule, p (model.weigh rule)) (input : List Symbol) :
    NoCancellation S model input := by
  intro x first last _ _ hzero d hd
  by_contra hne
  exact (hp.derivationSum_ne_zero_iff hrules).mpr ⟨d, hd, hne⟩ hzero

/-- Nothing cancels out among weights that are closed under sums and products and
whose sums vanish only with both operands. -/
theorem NoCancellation.of_cone {model : Model K} (p : S → Prop)
    (hadd : ∀ a b, p a → p b → p (a + b)) (hmul : ∀ a b, p a → p b → p (a * b))
    (hzero : p 0) (hfree : ∀ a b, p a → p b → a + b = 0 → a = 0)
    (hrule : ∀ rule, p (model.weigh rule)) (input : List Symbol) :
    NoCancellation S model input :=
  ZeroSumFree.noCancellation ⟨hzero, hadd _ _, hmul _ _, hfree _ _⟩ hrule input

/-- Nothing cancels out among weights of at least zero. -/
theorem NoCancellation.of_zero_le {K S : Type} [WeightAlgebra K S] [OrderedWeights K S]
    {model : Model K} (hrules : ∀ rule, Ranked.le 0 (model.weigh rule : S) = true)
    (input : List Symbol) : NoCancellation S model input :=
  ZeroSumFree.zero_le.noCancellation hrules input

theorem NoCancellation.of_nonneg {model : Model ℚ}
    (hrule : ∀ rule, 0 ≤ model.ruleWeight rule) (input : List Symbol) :
    NoCancellation (SumProduct ℚ) model input :=
  of_zero_le (fun rule => decide_eq_true (hrule rule)) input

variable {model : Model K} {input : List Symbol}

theorem NoCancellation.of_unambiguous
    (h : ∀ x first last, first ≤ last → last < input.length →
      (derivations model.policy input x first last).length ≤ 1) :
    NoCancellation S model input := by
  intro x first last hspan hlast hzero d hd
  have hmem := mem_derivations.mpr hd
  have hlength := h x first last hspan hlast
  rw [derivationSum] at hzero
  cases hlist : derivations model.policy input x first last with
  | nil =>
      rw [hlist] at hmem
      cases hmem
  | cons d' rest =>
      rw [hlist] at hmem hlength hzero
      obtain rfl : rest = [] := List.length_eq_zero_iff.mp (by simpa using hlength)
      obtain rfl : d = d' := by simpa using hmem
      simpa using hzero

theorem NoCancellation.multiplier_derivations (hfree : NoCancellation S model input) :
    Multiplier model input fun x first last (m : S) =>
      ∃ ds : List Derivation, (∀ d ∈ ds, Derives model.policy input x first last d) ∧
        m = (ds.map (Derivation.weight model)).sum where
  eq_zero := by
    rintro x first last m hspan hlast ⟨ds, hds, rfl⟩ hzero
    apply sum_map_eq_zero
    intro d hd
    exact hfree x first last hspan hlast hzero d (hds d hd)
  of_left := by
    rintro first last split rule m hsplit _ hrule ⟨ds, hds, rfl⟩
    refine ⟨joins split rule ds
      (derivations model.policy input rule.right (first + split + 1) last), ?_, ?_⟩
    · intro d hd
      obtain ⟨left, hleft, right, hright, rfl⟩ := mem_joins.mp hd
      exact .node hsplit hrule (hds left hleft) (mem_derivations.mp hright)
    · rw [sum_joins, ← mul_assoc,
        CommutativeWeights.mul_comm _ (model.weigh (.binary rule))]
      rfl
  of_right := by
    rintro first last split rule m hsplit _ hrule ⟨ds, hds, rfl⟩
    refine ⟨joins split rule
      (derivations model.policy input rule.left first (first + split)) ds, ?_, ?_⟩
    · intro d hd
      obtain ⟨left, hleft, right, hright, rfl⟩ := mem_joins.mp hd
      exact .node hsplit hrule (mem_derivations.mp hleft) (hds right hright)
    · rw [sum_joins, CommutativeWeights.mul_comm]
      rfl

/-- Without divisors of zero, all weights of a constituent with inside weight are
multipliers. -/
theorem NoCancellation.multiplier_of_ne_zero (hfree : NoCancellation S model input)
    (hdivisor : ∀ a b : S, a * b = 0 → a = 0 ∨ b = 0) :
    Multiplier model input fun x first last (m : S) =>
      derivationSum model input x first last = (0 : S) → m = 0 := by
  have hnode : ∀ {first last split : Nat} {rule : BinaryRule},
      split < last - first → last < input.length →
        rule ∈ model.policy.binaryRules first last split →
          derivationSum model input rule.parent first last = (0 : S) →
            model.weigh (.binary rule) *
              derivationSum model input rule.left first (first + split) *
                derivationSum model input rule.right (first + split + 1) last =
              (0 : S) := by
    intro first last split rule hsplit hlast hrule hzero
    rw [derivationSum, derivationSum, sum_mul_sum]
    apply sum_map_eq_zero
    intro left hleft
    apply sum_map_eq_zero
    intro right hright
    exact hfree rule.parent first last (by omega) hlast hzero _
      (.node hsplit hrule (mem_derivations.mp hleft) (mem_derivations.mp hright))
  constructor
  · intro x first last m _ _ hm hzero
    exact hm hzero
  · intro first last split rule m hsplit hlast hrule hm hzero
    rcases hdivisor _ _ (hnode hsplit hlast hrule hzero) with hleft | hright
    · rcases hdivisor _ _ hleft with hweight | hleft
      · rw [hweight, zero_mul, mul_zero]
      · rw [hm hleft, zero_mul]
    · rw [hright, mul_zero, mul_zero]
  · intro first last split rule m hsplit hlast hrule hm hzero
    rcases hdivisor _ _ (hnode hsplit hlast hrule hzero) with hleft | hright
    · rw [hleft, mul_zero]
    · rw [hm hright, zero_mul]

end WeightedParsing
