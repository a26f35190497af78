import WeightedParsing.Proofs.Chart.SpanTable
import WeightedParsing.Proofs.Derivation.Complete

/-!
# Sums over contexts

The summed weight of the contexts of a constituent satisfies an equation of its
own: a context is empty, or a rule leads from a wider span to the hole and the
sibling weighs what all its derivations weigh.  Weights of contexts and of
derivations together make up the weights of complete derivations.
-/

namespace WeightedParsing

variable {K S : Type} [WeightAlgebra K S] [CommutativeWeights K S]

attribute [local instance] LawfulWeights.semiring

/-! ## The equation of a sum over contexts -/

section Equation

variable (model : Model K) (input : List Symbol)

/-- The weights around a right child of a span, given those around its parents. -/
def rightGain (outer : Symbol → Nat → Nat → S) (x : Symbol)
    (first last split : Nat) : S :=
  ((model.policy.binaryRules first last split).map fun rule =>
    if rule.right = x then
      outer rule.parent first last *
        (model.weigh (.binary rule) *
          derivationSum model input rule.left first (first + split))
    else 0).sum

def leftGain (outer : Symbol → Nat → Nat → S) (x : Symbol)
    (first last split : Nat) : S :=
  ((model.policy.binaryRules first last split).map fun rule =>
    if rule.left = x then
      outer rule.parent first last *
        (model.weigh (.binary rule) *
          derivationSum model input rule.right (first + split + 1) last)
    else 0).sum

/-- The weights around a constituent that come from the spans wider by `width`
than one terminal. -/
def widthGain (outer : Symbol → Nat → Nat → S) (x : Symbol)
    (first last width : Nat) : S :=
  (if width ≤ last then
    rightGain model input outer x (last - width) last (first - 1 - (last - width))
  else 0) +
  (if first + width < input.length then
    leftGain model input outer x first (first + width) (last - first)
  else 0)

def outerGain (outer : Symbol → Nat → Nat → S) (x : Symbol)
    (first last : Nat) : S :=
  ((List.range (input.length - 1 - (last - first))).map fun i =>
    widthGain model input outer x first last (input.length - 1 - i)).sum

def contextSum [Scalar K] (prior : RootPrior K) (x : Symbol) (first last : Nat) : S :=
  ((contexts model.policy input x first last).map
    (Context.weight model prior x)).sum

theorem sum_rightContexts [Scalar K] (prior : RootPrior K)
    (outers : Symbol → List Context) (x : Symbol) (first last split : Nat) :
    ((rightContexts model.policy input x first last split outers).map
        (Context.weight model prior x : Context → S)).sum =
      rightGain model input
        (fun parent _ _ => ((outers parent).map (Context.weight model prior parent)).sum)
        x first last split := by
  rw [rightContexts, sum_flatMap, sum_filter, rightGain]
  simp only [decide_eq_true_eq]
  congr 2
  funext rule
  rw [sum_flatMap]
  simp only [List.map_map, Function.comp_def, Context.weight, List.sum_map_mul_left,
    List.sum_map_mul_right]
  rfl

theorem sum_leftContexts [Scalar K] (prior : RootPrior K)
    (outers : Symbol → List Context) (x : Symbol) (first last split : Nat) :
    ((leftContexts model.policy input x first last split outers).map
        (Context.weight model prior x : Context → S)).sum =
      leftGain model input
        (fun parent _ _ => ((outers parent).map (Context.weight model prior parent)).sum)
        x first last split := by
  rw [leftContexts, sum_flatMap, sum_filter, leftGain]
  simp only [decide_eq_true_eq]
  congr 2
  funext rule
  rw [sum_flatMap]
  simp only [List.map_map, Function.comp_def, Context.weight, List.sum_map_mul_left,
    List.sum_map_mul_right]
  rfl

theorem contextSum_eq [Scalar K] (prior : RootPrior K) (x : Symbol)
    (first last : Nat) :
    (contextSum model input prior x first last : S) =
      (if last - first + 1 = input.length then prior.weight x else 0) +
        outerGain model input (contextSum model input prior) x first last := by
  rw [contextSum, contexts, List.map_append, List.sum_append]
  congr 1
  · split
    · simp [Context.weight]
    · rfl
  · rw [outerGain, ← List.map_coe_finRange_eq_range, sum_flatMap, List.map_map]
    congr 2
    funext i
    rw [List.map_append, List.sum_append, Function.comp_apply, widthGain]
    congr 1
    · split
      · exact sum_rightContexts model input prior _ x _ _ _
      · rfl
    · split
      · exact sum_leftContexts model input prior _ x _ _ _
      · rfl

end Equation

/-! ## Sums over constituents -/

theorem weight_plug [Scalar K] (model : Model K) (prior : RootPrior K)
    (context : Context) (d : Derivation) :
    (prior.weight (context.plug d).root * (context.plug d).weight model : S) =
      context.weight model prior d.root * d.weight model := by
  have hcomm := CommutativeWeights.mul_comm (K := K) (S := S)
  induction context generalizing d with
  | whole => rfl
  | left split rule outer right ih =>
      rw [Context.plug, ih, Context.weight]
      change outer.weight model prior rule.parent *
        (model.weigh (.binary rule) * d.weight model * right.weight model) = _
      rw [mul_assoc, hcomm (d.weight model), mul_assoc, mul_assoc]
  | right split rule left outer ih =>
      rw [Context.plug, ih, Context.weight]
      change outer.weight model prior rule.parent *
        (model.weigh (.binary rule) * left.weight model * d.weight model) = _
      rw [mul_assoc, mul_assoc, mul_assoc]

variable {policy : Policy} {input : List Symbol}

def chosenConstituents (policy : Policy) (input : List Symbol) :
    List (Constituent × Derivation) :=
  (completeDerivations policy input).flatMap fun d =>
    (d.constituents 0 (input.length - 1)).map fun part => (part, d)

/-- Every derivation of every span with every complete derivation around it. -/
def filledContexts (policy : Policy) (input : List Symbol) :
    List (Constituent × Derivation) :=
  (spansWidening input.length).flatMap fun span =>
    (derivationsOver policy input span.1 span.2).flatMap fun d =>
      (contexts policy input d.root span.1 span.2).map fun context =>
        (⟨span.1, span.2, d⟩, context.plug d)

theorem nodup_chosenConstituents (hpolicy : policy.Covering) (input : List Symbol) :
    (chosenConstituents policy input).Nodup := by
  unfold chosenConstituents
  apply nodup_flatMap_of_unique (nodup_derivationsOver hpolicy _ _ _)
  · intro d hd
    have hparts := Derivation.nodup_constituents (mem_completeDerivations.mp hd)
      (Nat.zero_le _)
    exact (List.Nodup.of_map _ hparts).map fun _ _ h => (Prod.mk.inj h).1
  · intro d d' pair hpair hpair'
    obtain ⟨part, _, rfl⟩ := List.mem_map.mp hpair
    obtain ⟨part', _, heq⟩ := List.mem_map.mp hpair'
    exact (Prod.mk.inj heq).2.symm

theorem mem_filledContexts {part : Constituent} {d : Derivation} :
    (part, d) ∈ filledContexts policy input ↔
      (part.first ≤ part.last ∧ part.last < input.length) ∧
        Derives policy input part.derivation.root part.first part.last
            part.derivation ∧
          ∃ context,
            Surrounds policy input part.derivation.root part.first part.last context ∧
              context.plug part.derivation = d := by
  unfold filledContexts
  simp only [List.mem_flatMap, List.mem_map]
  constructor
  · rintro ⟨span, hspan, filling, hfilling, context, hcontext, heq⟩
    obtain ⟨rfl, rfl⟩ := Prod.mk.inj heq
    rw [mem_spansWidening] at hspan
    rw [mem_derivationsOver] at hfilling
    rw [mem_contexts hspan.1 hspan.2] at hcontext
    exact ⟨hspan, hfilling, context, hcontext, rfl⟩
  · rintro ⟨hspan, hderives, context, hcontext, rfl⟩
    refine ⟨(part.first, part.last), mem_spansWidening.mpr hspan, part.derivation,
      mem_derivationsOver.mpr hderives, context, ?_, rfl⟩
    exact (mem_contexts hspan.1 hspan.2).mpr hcontext

theorem nodup_filledContexts (hpolicy : policy.Covering) (input : List Symbol) :
    (filledContexts policy input).Nodup := by
  unfold filledContexts
  apply nodup_flatMap_of_unique (nodup_spansWidening _)
  · intro span hspan
    rw [mem_spansWidening] at hspan
    apply nodup_flatMap_of_unique (nodup_derivationsOver hpolicy _ _ _)
    · intro d _
      apply (nodup_contexts hpolicy hspan.1 hspan.2).map_on
      intro context hcontext context' hcontext' heq
      rw [mem_contexts hspan.1 hspan.2] at hcontext hcontext'
      exact (hcontext.plug_injective hcontext' (Prod.mk.inj heq).2).1
    · intro d d' pair hpair hpair'
      obtain ⟨context, _, rfl⟩ := List.mem_map.mp hpair
      obtain ⟨context', _, heq⟩ := List.mem_map.mp hpair'
      exact (Constituent.mk.inj (Prod.mk.inj heq).1).2.2.symm
  · intro span span' pair hpair hpair'
    obtain ⟨d, _, hpair⟩ := List.mem_flatMap.mp hpair
    obtain ⟨context, _, rfl⟩ := List.mem_map.mp hpair
    obtain ⟨d', _, hpair'⟩ := List.mem_flatMap.mp hpair'
    obtain ⟨context', _, heq⟩ := List.mem_map.mp hpair'
    have hspans := Constituent.mk.inj (Prod.mk.inj heq).1
    exact Prod.ext hspans.1.symm hspans.2.1.symm

/-- Choosing a constituent of a complete derivation is choosing a derivation and a
context for it. -/
theorem chosenConstituents_perm (hpolicy : policy.Covering) (hinput : input ≠ []) :
    (chosenConstituents policy input).Perm (filledContexts policy input) := by
  apply (List.perm_ext_iff_of_nodup (nodup_chosenConstituents hpolicy input)
    (nodup_filledContexts hpolicy input)).mpr
  rintro ⟨part, d⟩
  rw [mem_filledContexts]
  simp only [chosenConstituents, List.mem_flatMap, List.mem_map, Prod.mk.injEq]
  have hlength : 0 < input.length := List.length_pos_iff.mpr hinput
  constructor
  · rintro ⟨d, hd, part, hpart, rfl, rfl⟩
    obtain ⟨context, hplug, hcontext, hderives⟩ :=
      exists_context_of_mem_constituents hd hpart
    have hbounds := hcontext.bounds
    exact ⟨⟨hbounds.1, by omega⟩, hderives, context, hcontext, hplug⟩
  · rintro ⟨_, hderives, context, hcontext, rfl⟩
    refine ⟨_, hcontext.derives_plug hderives, part, ?_, rfl, rfl⟩
    exact hcontext.mem_constituents_plug (Derivation.self_mem_constituents _ _ _)

theorem sum_constituents [Scalar K] (model : Model K) (hpolicy : model.policy.Covering)
    (prior : RootPrior K) (hinput : input ≠ []) (p : Constituent → Prop)
    [DecidablePred p] :
    ((completeDerivations model.policy input).map fun d =>
        ((d.constituents 0 (input.length - 1)).map fun part =>
          if p part then prior.weight d.root * d.weight model else 0).sum).sum =
      ((spansWidening input.length).map fun span =>
        ((derivationsOver model.policy input span.1 span.2).map fun d =>
          if p ⟨span.1, span.2, d⟩ then
            contextSum model input prior d.root span.1 span.2 * d.weight model
          else (0 : S)).sum).sum := by
  let value : Constituent × Derivation → S := fun pair =>
    if p pair.1 then prior.weight pair.2.root * pair.2.weight model else 0
  have hperm := (chosenConstituents_perm hpolicy hinput).map value
  have hchosen : ((chosenConstituents model.policy input).map value).sum =
      ((completeDerivations model.policy input).map fun d =>
        ((d.constituents 0 (input.length - 1)).map fun part =>
          if p part then prior.weight d.root * d.weight model else 0).sum).sum := by
    rw [chosenConstituents, sum_flatMap]
    simp only [List.map_map]
    rfl
  rw [← hchosen, hperm.sum_eq, filledContexts, sum_flatMap]
  congr 2
  funext span
  rw [sum_flatMap]
  congr 2
  funext d
  rw [List.map_map]
  by_cases hp : p ⟨span.1, span.2, d⟩
  · rw [if_pos hp, contextSum, ← List.sum_map_mul_right]
    congr 2
    funext context
    rw [Function.comp_apply, ← weight_plug]
    exact if_pos hp
  · rw [if_neg hp]
    apply sum_map_eq_zero
    intro context _
    exact if_neg hp

theorem Derivation.map_rule_constituents (d : Derivation) (first last : Nat) :
    ((d.constituents first last).map fun part => part.derivation.rule) = d.rules := by
  induction d generalizing first last with
  | leaf rule => rfl
  | node split rule left right ihLeft ihRight =>
      rw [constituents, List.map_cons, List.map_append, ihLeft, ihRight]
      rfl

theorem sum_occurrences [Scalar K] (model : Model K) (hpolicy : model.policy.Covering)
    (prior : RootPrior K) (hinput : input ≠ []) (rule : Rule) :
    ((occurrences model.policy input rule).map fun d =>
        prior.weight d.root * d.weight model).sum =
      ((spansWidening input.length).map fun span =>
        ((derivationsOver model.policy input span.1 span.2).map fun d =>
          (if d.rule = rule then
            contextSum model input prior d.rule.parent span.1 span.2
          else 0) * (d.weight model : S)).sum).sum := by
  have hreplicate : ∀ (d : Derivation) (weight : S),
      ((d.constituents 0 (input.length - 1)).map fun part =>
          if part.derivation.rule = rule then weight else 0).sum =
        (List.replicate (d.rules.count rule) weight).sum := by
    intro d weight
    rw [← sum_ite_eq_sum_replicate, ← d.map_rule_constituents 0 (input.length - 1),
      List.map_map]
    rfl
  have hconstituents := sum_constituents model hpolicy prior hinput (S := S)
    fun part => part.derivation.rule = rule
  simp only [hreplicate] at hconstituents
  simp only [ite_mul, zero_mul, ← Derivation.root_eq_parent_rule]
  rw [occurrences, sum_flatMap, ← hconstituents]
  simp only [List.map_replicate]

/-- The derivations with a constituent weigh what its contexts and its derivations
weigh together, because no derivation has two constituents over one span. -/
theorem sum_derivationsWith [Scalar K] (model : Model K)
    (hpolicy : model.policy.Covering) (prior : RootPrior K) (hinput : input ≠ [])
    {first last : Nat} (hspan : first ≤ last) (hlast : last < input.length)
    (x : Symbol) :
    ((derivationsWith model.policy input x first last).map fun d =>
        prior.weight d.root * d.weight model).sum =
      contextSum model input prior x first last *
        (derivationSum model input x first last : S) := by
  have hconstituents := sum_constituents model hpolicy prior hinput (S := S)
    fun part => part.first = first ∧ part.last = last ∧ part.derivation.root = x
  rw [derivationsWith, sum_filter]
  calc
    _ = _ := by
      congr 1
      apply List.map_congr_left
      intro d hd
      symm
      apply sum_ite_of_exclusive
      apply Derivation.exclusive_constituents (mem_completeDerivations.mp hd)
        (Nat.zero_le _)
      exact fun part hpart => ⟨hpart.1, hpart.2.1⟩
    _ = _ := hconstituents
    _ = ((spansWidening input.length).map fun span =>
          if span = (first, last) then
            contextSum model input prior x first last *
              derivationSum model input x first last
          else 0).sum := by
      congr 2
      funext span
      by_cases hother : span = (first, last)
      · subst hother
        rw [if_pos rfl, derivationSum, derivations, sum_filter,
          ← List.sum_map_mul_left]
        congr 2
        funext d
        by_cases hroot : d.root = x
        · simp [hroot]
        · simp [hroot]
      · rw [if_neg hother]
        apply sum_map_eq_zero
        intro d _
        apply if_neg
        rintro ⟨rfl, rfl, _⟩
        exact hother rfl
    _ = _ := by
      rw [sum_ite_of_exclusive]
      · apply if_pos
        rw [List.any_eq_true]
        exact ⟨_, mem_spansWidening.mpr ⟨hspan, hlast⟩, decide_eq_true rfl⟩
      · apply (nodup_spansWidening _).imp
        rintro a b hne ⟨rfl, rfl⟩
        exact hne rfl

end WeightedParsing
