import WeightedParsing.Proofs.Derivation.Context

/-!
# Listing contexts

The contexts of a constituent are listed like its derivations are, each of them
once and those under the widest spans first.  Both lists together reach every
complete derivation with a chosen constituent exactly once, so that sums over
complete derivations turn into sums over spans, contexts and derivations.
-/

namespace WeightedParsing

/-- The contexts of a right child of a span, given the contexts of the parents. -/
def rightContexts (policy : Policy) (input : List Symbol) (x : Symbol)
    (first last split : Nat) (outers : Symbol → List Context) : List Context :=
  ((policy.binaryRules first last split).filter
      fun rule => rule.right = x).flatMap fun rule =>
    (outers rule.parent).flatMap fun outer =>
      (derivations policy input rule.left first (first + split)).map fun left =>
        .right split rule left outer

def leftContexts (policy : Policy) (input : List Symbol) (x : Symbol)
    (first last split : Nat) (outers : Symbol → List Context) : List Context :=
  ((policy.binaryRules first last split).filter
      fun rule => rule.left = x).flatMap fun rule =>
    (outers rule.parent).flatMap fun outer =>
      (derivations policy input rule.right (first + split + 1) last).map fun right =>
        .left split rule outer right

def contexts (policy : Policy) (input : List Symbol) (x : Symbol)
    (first last : Nat) : List Context :=
  (if last - first + 1 = input.length then [.whole] else []) ++
    (List.finRange (input.length - 1 - (last - first))).flatMap
      fun i : Fin (input.length - 1 - (last - first)) =>
        let width := input.length - 1 - i
        (if width ≤ last then
          rightContexts policy input x (last - width) last
            (first - 1 - (last - width)) fun parent =>
              contexts policy input parent (last - width) last
        else []) ++
        (if first + width < input.length then
          leftContexts policy input x first (first + width) (last - first)
            fun parent => contexts policy input parent first (first + width)
        else [])
termination_by input.length - (last - first)
decreasing_by all_goals have := i.isLt; omega

def derivationsWith (policy : Policy) (input : List Symbol) (x : Symbol)
    (first last : Nat) : List Derivation :=
  (completeDerivations policy input).filter fun d =>
    (d.constituents 0 (input.length - 1)).any fun part =>
      part.first = first ∧ part.last = last ∧ part.derivation.root = x

/-- The complete derivations that use a rule, each of them once for every use. -/
def occurrences (policy : Policy) (input : List Symbol) (rule : Rule) :
    List Derivation :=
  (completeDerivations policy input).flatMap fun d =>
    List.replicate (d.rules.count rule) d

variable {policy : Policy} {input : List Symbol} {x : Symbol} {first last : Nat}

theorem mem_derivationsWith {d : Derivation} :
    d ∈ derivationsWith policy input x first last ↔
      d ∈ completeDerivations policy input ∧
        ∃ part ∈ d.constituents 0 (input.length - 1),
          part.first = first ∧ part.last = last ∧ part.derivation.root = x := by
  simp [derivationsWith]

theorem mem_occurrences {rule : Rule} {d : Derivation} :
    d ∈ occurrences policy input rule ↔
      d ∈ completeDerivations policy input ∧ rule ∈ d.rules := by
  simp [occurrences, List.mem_replicate, List.count_eq_zero, and_comm]

theorem mem_rightContexts {split : Nat} {outers : Symbol → List Context}
    {context : Context} :
    context ∈ rightContexts policy input x first last split outers ↔
      ∃ rule left outer, context = .right split rule left outer ∧ rule.right = x ∧
        rule ∈ policy.binaryRules first last split ∧ outer ∈ outers rule.parent ∧
          Derives policy input rule.left first (first + split) left := by
  simp only [rightContexts, List.mem_flatMap, List.mem_filter, List.mem_map,
    mem_derivations, decide_eq_true_eq]
  constructor
  · rintro ⟨rule, ⟨hrule, hx⟩, outer, houter, left, hleft, rfl⟩
    exact ⟨rule, left, outer, rfl, hx, hrule, houter, hleft⟩
  · rintro ⟨rule, left, outer, rfl, hx, hrule, houter, hleft⟩
    exact ⟨rule, ⟨hrule, hx⟩, outer, houter, left, hleft, rfl⟩

theorem mem_leftContexts {split : Nat} {outers : Symbol → List Context}
    {context : Context} :
    context ∈ leftContexts policy input x first last split outers ↔
      ∃ rule outer right, context = .left split rule outer right ∧ rule.left = x ∧
        rule ∈ policy.binaryRules first last split ∧ outer ∈ outers rule.parent ∧
          Derives policy input rule.right (first + split + 1) last right := by
  simp only [leftContexts, List.mem_flatMap, List.mem_filter, List.mem_map,
    mem_derivations, decide_eq_true_eq]
  constructor
  · rintro ⟨rule, ⟨hrule, hx⟩, outer, houter, right, hright, rfl⟩
    exact ⟨rule, outer, right, rfl, hx, hrule, houter, hright⟩
  · rintro ⟨rule, outer, right, rfl, hx, hrule, houter, hright⟩
    exact ⟨rule, ⟨hrule, hx⟩, outer, houter, right, hright, rfl⟩

theorem mem_contexts_cases (hlast : last < input.length) {context : Context} :
    context ∈ contexts policy input x first last ↔
      (context = .whole ∧ last - first + 1 = input.length) ∨
        (∃ width, last - first < width ∧ width ≤ last ∧
          context ∈ rightContexts policy input x (last - width) last
            (first - 1 - (last - width)) fun parent =>
              contexts policy input parent (last - width) last) ∨
          ∃ width, last - first < width ∧ first + width < input.length ∧
            context ∈ leftContexts policy input x first (first + width)
              (last - first) fun parent =>
                contexts policy input parent first (first + width) := by
  rw [contexts]
  simp only [List.mem_append, List.mem_flatMap, List.mem_finRange, true_and,
    List.mem_ite_nil_right, List.mem_singleton]
  constructor
  · rintro (⟨hwhole, rfl⟩ | ⟨i, ⟨hwidth, hmem⟩ | ⟨hwidth, hmem⟩⟩)
    · exact .inl ⟨rfl, hwhole⟩
    · exact .inr (.inl ⟨_, by have := i.isLt; omega, hwidth, hmem⟩)
    · exact .inr (.inr ⟨_, by have := i.isLt; omega, hwidth, hmem⟩)
  · rintro (⟨rfl, hwhole⟩ | ⟨width, hwide, hwidth, hmem⟩ | ⟨width, hwide, hwidth, hmem⟩)
    · exact .inl ⟨hwhole, rfl⟩
    · refine .inr ⟨⟨input.length - 1 - width, by omega⟩, .inl ?_⟩
      rw [show input.length - 1 - (input.length - 1 - width) = width by omega]
      exact ⟨hwidth, hmem⟩
    · refine .inr ⟨⟨input.length - 1 - width, by omega⟩, .inr ?_⟩
      rw [show input.length - 1 - (input.length - 1 - width) = width by omega]
      exact ⟨hwidth, hmem⟩

theorem mem_contexts (hspan : first ≤ last) (hlast : last < input.length)
    {context : Context} :
    context ∈ contexts policy input x first last ↔
      Surrounds policy input x first last context := by
  induction context generalizing x first last with
  | whole =>
      rw [mem_contexts_cases hlast]
      simp only [mem_rightContexts, mem_leftContexts, reduceCtorEq, false_and,
        exists_false, and_false, or_false, true_and]
      constructor
      · intro hwhole
        obtain ⟨rfl, rfl⟩ : first = 0 ∧ last = input.length - 1 := by omega
        exact .whole
      · intro h
        cases h with
        | whole => omega
  | left split rule outer right ih =>
      rw [mem_contexts_cases hlast, surrounds_left_iff]
      simp only [mem_rightContexts, mem_leftContexts, reduceCtorEq, false_and,
        exists_false, and_false, false_or]
      constructor
      · rintro ⟨width, hwide, hwidth, r, o, t, heq, rfl, hrule, houter, hright⟩
        obtain ⟨rfl, rfl, rfl, rfl⟩ := Context.left.inj heq
        refine ⟨rfl, by omega, first + width, by omega, hrule, ?_, hright⟩
        exact (ih (by omega) hwidth).mp houter
      · rintro ⟨rfl, rfl, bound, hsplit, hrule, houter, hright⟩
        have hbound := houter.bounds
        refine ⟨bound - first, by omega, by omega, rule, outer, right, ?_, rfl, ?_⟩
        · rw [Nat.add_sub_cancel_left]
        · rw [Nat.add_sub_cancel_left, Nat.add_sub_cancel' hbound.1]
          exact ⟨hrule, (ih hbound.1 (by omega)).mpr houter, hright⟩
  | right split rule left outer ih =>
      rw [mem_contexts_cases hlast, surrounds_right_iff]
      simp only [mem_rightContexts, mem_leftContexts, reduceCtorEq, false_and,
        exists_false, and_false, false_or, or_false]
      constructor
      · rintro ⟨width, hwide, hwidth, r, l, o, heq, rfl, hrule, houter, hleft⟩
        obtain ⟨rfl, rfl, rfl, rfl⟩ := Context.right.inj heq
        refine ⟨rfl, last - width, by omega, by omega, hrule, hleft, ?_⟩
        exact (ih (by omega) hlast).mp houter
      · rintro ⟨rfl, start, rfl, hsplit, hrule, hleft, houter⟩
        have hbound := houter.bounds
        refine ⟨last - start, by omega, by omega, rule, left, outer, ?_, rfl, ?_⟩
        · congr 1
          omega
        · rw [show last - (last - start) = start by omega,
            show start + split + 1 - 1 - start = split by omega]
          exact ⟨hrule, (ih hbound.1 hlast).mpr houter, hleft⟩

theorem nodup_rightContexts (hpolicy : policy.Covering) {split : Nat}
    {outers : Symbol → List Context} (houters : ∀ parent, (outers parent).Nodup) :
    (rightContexts policy input x first last split outers).Nodup := by
  apply nodup_flatMap_of_unique ((hpolicy.binary_nodup first last split).filter _)
  · intro rule _
    apply nodup_flatMap_of_unique (houters rule.parent)
    · intro outer _
      exact (isListing_derivations hpolicy _ _ _ _).nodup.map
        fun _ _ h => (Context.right.inj h).2.2.1
    · intro outer outer' context hmem hmem'
      obtain ⟨left, _, rfl⟩ := List.mem_map.mp hmem
      obtain ⟨left', _, heq⟩ := List.mem_map.mp hmem'
      exact (Context.right.inj heq).2.2.2.symm
  · intro rule rule' context hmem hmem'
    obtain ⟨outer, _, hmem⟩ := List.mem_flatMap.mp hmem
    obtain ⟨left, _, rfl⟩ := List.mem_map.mp hmem
    obtain ⟨outer', _, hmem'⟩ := List.mem_flatMap.mp hmem'
    obtain ⟨left', _, heq⟩ := List.mem_map.mp hmem'
    exact (Context.right.inj heq).2.1.symm

theorem nodup_leftContexts (hpolicy : policy.Covering) {split : Nat}
    {outers : Symbol → List Context} (houters : ∀ parent, (outers parent).Nodup) :
    (leftContexts policy input x first last split outers).Nodup := by
  apply nodup_flatMap_of_unique ((hpolicy.binary_nodup first last split).filter _)
  · intro rule _
    apply nodup_flatMap_of_unique (houters rule.parent)
    · intro outer _
      exact (isListing_derivations hpolicy _ _ _ _).nodup.map
        fun _ _ h => (Context.left.inj h).2.2.2
    · intro outer outer' context hmem hmem'
      obtain ⟨right, _, rfl⟩ := List.mem_map.mp hmem
      obtain ⟨right', _, heq⟩ := List.mem_map.mp hmem'
      exact (Context.left.inj heq).2.2.1.symm
  · intro rule rule' context hmem hmem'
    obtain ⟨outer, _, hmem⟩ := List.mem_flatMap.mp hmem
    obtain ⟨right, _, rfl⟩ := List.mem_map.mp hmem
    obtain ⟨outer', _, hmem'⟩ := List.mem_flatMap.mp hmem'
    obtain ⟨right', _, heq⟩ := List.mem_map.mp hmem'
    exact (Context.left.inj heq).2.1.symm

/-- The width of the span right around the hole. -/
def Context.parentWidth (length : Nat) : Context → Nat
  | whole => 0
  | left _ _ outer _ => (outer.span length).2 - (outer.span length).1
  | right _ _ _ outer => (outer.span length).2 - (outer.span length).1

theorem parentWidth_of_mem {width : Nat} (hwide : last - first < width)
    (hlast : last < input.length) {context : Context}
    (h : context ∈
      (if width ≤ last then
        rightContexts policy input x (last - width) last
          (first - 1 - (last - width)) fun parent =>
            contexts policy input parent (last - width) last
      else []) ++
      (if first + width < input.length then
        leftContexts policy input x first (first + width) (last - first)
          fun parent => contexts policy input parent first (first + width)
      else [])) :
    context.parentWidth input.length = width := by
  rw [List.mem_append, List.mem_ite_nil_right, List.mem_ite_nil_right] at h
  rcases h with ⟨hwidth, h⟩ | ⟨hwidth, h⟩
  · obtain ⟨rule, left, outer, rfl, _, _, houter, _⟩ := mem_rightContexts.mp h
    rw [mem_contexts (by omega) hlast] at houter
    rw [Context.parentWidth, houter.span_eq]
    omega
  · obtain ⟨rule, outer, right, rfl, _, _, houter, _⟩ := mem_leftContexts.mp h
    rw [mem_contexts (by omega) hwidth] at houter
    rw [Context.parentWidth, houter.span_eq]
    omega

theorem nodup_contexts (hpolicy : policy.Covering) (hspan : first ≤ last)
    (hlast : last < input.length) :
    (contexts policy input x first last).Nodup := by
  induction hwidth : input.length - (last - first) using Nat.strong_induction_on
    generalizing first last x with
  | _ w ih =>
      rw [contexts, List.nodup_append]
      refine ⟨by split <;> simp, ?_, ?_⟩
      · apply nodup_flatMap_of_unique (List.nodup_finRange _)
        · intro i _
          have hi := i.isLt
          rw [List.nodup_append]
          refine ⟨?_, ?_, ?_⟩
          · split
            · apply nodup_rightContexts hpolicy
              intro parent
              exact ih _ (by omega) (by omega) hlast rfl
            · exact List.nodup_nil
          · split
            · rename_i hwide
              apply nodup_leftContexts hpolicy
              intro parent
              exact ih _ (by omega) (by omega) hwide rfl
            · exact List.nodup_nil
          · rintro a ha _ hb rfl
            rw [List.mem_ite_nil_right] at ha hb
            obtain ⟨_, _, _, rfl, _⟩ := mem_rightContexts.mp ha.2
            obtain ⟨_, _, _, heq, _⟩ := mem_leftContexts.mp hb.2
            cases heq
        · intro i i' context hmem hmem'
          have hi := i.isLt
          have hi' := i'.isLt
          have h := parentWidth_of_mem (by omega) hlast hmem
          have h' := parentWidth_of_mem (by omega) hlast hmem'
          exact Fin.ext (by omega)
      · intro a ha b hb hab
        subst hab
        rw [List.mem_ite_nil_right, List.mem_singleton] at ha
        obtain ⟨i, _, hb⟩ := List.mem_flatMap.mp hb
        rcases List.mem_append.mp hb with hb | hb
        · rw [List.mem_ite_nil_right] at hb
          obtain ⟨_, _, _, heq, _⟩ := mem_rightContexts.mp hb.2
          rw [ha.2] at heq
          cases heq
        · rw [List.mem_ite_nil_right] at hb
          obtain ⟨_, _, _, heq, _⟩ := mem_leftContexts.mp hb.2
          rw [ha.2] at heq
          cases heq

theorem isListing_contexts (hpolicy : policy.Covering) (hspan : first ≤ last)
    (hlast : last < input.length) (x : Symbol) :
    IsListing (contexts policy input x first last)
      (Surrounds policy input x first last) where
  nodup := nodup_contexts hpolicy hspan hlast
  mem_iff := fun _ => mem_contexts hspan hlast

end WeightedParsing
