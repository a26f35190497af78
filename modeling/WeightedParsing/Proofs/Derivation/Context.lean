import WeightedParsing.Proofs.Derivation.Basic

/-!
# Constituents and their contexts

A constituent of a derivation is one of its parts together with the span that the
part covers.  What is left when a constituent is cut out of a complete derivation
is its context; it is read from the hole outward, one rule after the other.
Cutting out and filling in are inverse to each other: a complete derivation with
a chosen constituent is the same as a context with a derivation that fits in.
-/

namespace WeightedParsing

structure Constituent where
  first : Nat
  last : Nat
  derivation : Derivation
deriving DecidableEq, Repr

def Derivation.constituents : Derivation → Nat → Nat → List Constituent
  | leaf rule, first, last => [⟨first, last, leaf rule⟩]
  | node split rule left right, first, last =>
      ⟨first, last, node split rule left right⟩ ::
        (left.constituents first (first + split) ++
          right.constituents (first + split + 1) last)

/-- A complete derivation with a constituent cut out. -/
inductive Context where
  | whole
  | left (split : Nat) (rule : BinaryRule) (outer : Context) (right : Derivation)
  | right (split : Nat) (rule : BinaryRule) (left : Derivation) (outer : Context)
deriving DecidableEq, Repr

/-- `Surrounds policy input x first last c`: what `c` leaves out of a derivation
of the whole input is a constituent `x` from `first` to `last`. -/
inductive Surrounds (policy : Policy) (input : List Symbol) :
    Symbol → Nat → Nat → Context → Prop where
  | whole {x : Symbol} : Surrounds policy input x 0 (input.length - 1) .whole
  | left {first last split : Nat} {rule : BinaryRule} {outer : Context}
      {right : Derivation} (hsplit : split < last - first)
      (hrule : rule ∈ policy.binaryRules first last split)
      (houter : Surrounds policy input rule.parent first last outer)
      (hright : Derives policy input rule.right (first + split + 1) last right) :
      Surrounds policy input rule.left first (first + split)
        (.left split rule outer right)
  | right {first last split : Nat} {rule : BinaryRule} {left : Derivation}
      {outer : Context} (hsplit : split < last - first)
      (hrule : rule ∈ policy.binaryRules first last split)
      (hleft : Derives policy input rule.left first (first + split) left)
      (houter : Surrounds policy input rule.parent first last outer) :
      Surrounds policy input rule.right (first + split + 1) last
        (.right split rule left outer)

namespace Context

def plug : Context → Derivation → Derivation
  | whole, d => d
  | left split rule outer sibling, d => outer.plug (.node split rule d sibling)
  | right split rule sibling outer, d => outer.plug (.node split rule sibling d)

/-- The prior weight of the root times all weights outside the hole, where `x`
belongs. -/
def weight {K S : Type} [Scalar K] [WeightAlgebra K S] (model : Model K)
    (prior : RootPrior K) (x : Symbol) : Context → S
  | whole => prior.weight x
  | left _ rule outer sibling =>
      outer.weight model prior rule.parent *
        (model.weigh (.binary rule) * sibling.weight model)
  | right _ rule sibling outer =>
      outer.weight model prior rule.parent *
        (model.weigh (.binary rule) * sibling.weight model)

def span (length : Nat) : Context → Nat × Nat
  | whole => (0, length - 1)
  | left split _ outer _ => ((outer.span length).1, (outer.span length).1 + split)
  | right split _ _ outer =>
      ((outer.span length).1 + split + 1, (outer.span length).2)

end Context

variable {policy : Policy} {input : List Symbol} {x : Symbol} {first last : Nat}
  {context : Context}

theorem Surrounds.bounds (h : Surrounds policy input x first last context) :
    first ≤ last ∧ last ≤ input.length - 1 := by
  induction h with
  | whole => exact ⟨Nat.zero_le _, le_rfl⟩
  | left hsplit _ _ _ ih => omega
  | right hsplit _ _ _ ih => omega

theorem Surrounds.span_eq (h : Surrounds policy input x first last context) :
    context.span input.length = (first, last) := by
  induction h with
  | whole => rfl
  | left _ _ _ _ ih => simp [Context.span, ih]
  | right _ _ _ _ ih => simp [Context.span, ih]

theorem surrounds_left_iff {split : Nat} {rule : BinaryRule} {outer : Context}
    {right : Derivation} :
    Surrounds policy input x first last (.left split rule outer right) ↔
      rule.left = x ∧ last = first + split ∧ ∃ bound, split < bound - first ∧
        rule ∈ policy.binaryRules first bound split ∧
          Surrounds policy input rule.parent first bound outer ∧
            Derives policy input rule.right (first + split + 1) bound right := by
  constructor
  · intro h
    cases h with
    | left hsplit hrule houter hright =>
        exact ⟨rfl, rfl, _, hsplit, hrule, houter, hright⟩
  · rintro ⟨rfl, rfl, bound, hsplit, hrule, houter, hright⟩
    exact .left hsplit hrule houter hright

theorem surrounds_right_iff {split : Nat} {rule : BinaryRule} {outer : Context}
    {left : Derivation} :
    Surrounds policy input x first last (.right split rule left outer) ↔
      rule.right = x ∧ ∃ start, first = start + split + 1 ∧ split < last - start ∧
        rule ∈ policy.binaryRules start last split ∧
          Derives policy input rule.left start (start + split) left ∧
            Surrounds policy input rule.parent start last outer := by
  constructor
  · intro h
    cases h with
    | right hsplit hrule hleft houter =>
        exact ⟨rfl, _, rfl, hsplit, hrule, hleft, houter⟩
  · rintro ⟨rfl, start, rfl, hsplit, hrule, hleft, houter⟩
    exact .right hsplit hrule hleft houter

/-! ## Filling in and cutting out -/

theorem Surrounds.derives_plug (h : Surrounds policy input x first last context)
    {d : Derivation} (hd : Derives policy input x first last d) :
    context.plug d ∈ completeDerivations policy input := by
  induction h generalizing d with
  | whole =>
      rw [Context.plug, mem_completeDerivations, hd.root_eq]
      exact hd
  | left hsplit hrule _ hright ih => exact ih (.node hsplit hrule hd hright)
  | right hsplit hrule hleft _ ih => exact ih (.node hsplit hrule hleft hd)

theorem Surrounds.mem_constituents_plug
    (h : Surrounds policy input x first last context) {d : Derivation}
    {part : Constituent} (hpart : part ∈ d.constituents first last) :
    part ∈ (context.plug d).constituents 0 (input.length - 1) := by
  induction h generalizing d with
  | whole => exact hpart
  | left _ _ _ _ ih =>
      apply ih
      simp [Derivation.constituents, hpart]
  | right _ _ _ _ ih =>
      apply ih
      simp [Derivation.constituents, hpart]

theorem Derivation.self_mem_constituents (d : Derivation) (first last : Nat) :
    ⟨first, last, d⟩ ∈ d.constituents first last := by
  cases d <;> simp [constituents]

theorem Surrounds.exists_context {d : Derivation}
    (h : Surrounds policy input x first last context)
    (hd : Derives policy input x first last d) {part : Constituent}
    (hpart : part ∈ d.constituents first last) :
    ∃ inner, inner.plug part.derivation = context.plug d ∧
      Surrounds policy input part.derivation.root part.first part.last inner ∧
        Derives policy input part.derivation.root part.first part.last
          part.derivation := by
  induction d generalizing x first last context with
  | leaf rule =>
      rw [Derivation.constituents, List.mem_singleton] at hpart
      subst hpart
      rw [hd.root_eq]
      exact ⟨context, rfl, h, hd⟩
  | node split rule left right ihLeft ihRight =>
      rw [Derivation.constituents, List.mem_cons, List.mem_append] at hpart
      rcases hpart with rfl | hpart | hpart
      · rw [hd.root_eq]
        exact ⟨context, rfl, h, hd⟩
      · obtain ⟨rfl, hsplit, hrule, hleft, hright⟩ := derives_node_iff.mp hd
        exact ihLeft (.left hsplit hrule h hright) hleft hpart
      · obtain ⟨rfl, hsplit, hrule, hleft, hright⟩ := derives_node_iff.mp hd
        exact ihRight (.right hsplit hrule hleft h) hright hpart

/-- A constituent of a complete derivation is what some context leaves out. -/
theorem exists_context_of_mem_constituents {d : Derivation}
    (hd : d ∈ completeDerivations policy input) {part : Constituent}
    (hpart : part ∈ d.constituents 0 (input.length - 1)) :
    ∃ inner, inner.plug part.derivation = d ∧
      Surrounds policy input part.derivation.root part.first part.last inner ∧
        Derives policy input part.derivation.root part.first part.last
          part.derivation :=
  Surrounds.exists_context .whole (mem_completeDerivations.mp hd) hpart

/-- Walks from the top of a derivation down to the span from `start` to `stop`
and keeps what it passes. -/
def Derivation.focus (start stop : Nat) :
    Derivation → Nat → Nat → Context → Context × Derivation
  | leaf rule, _, _, outer => (outer, leaf rule)
  | node split rule left right, first, last, outer =>
      if first = start ∧ last = stop then (outer, node split rule left right)
      else if stop ≤ first + split then
        left.focus start stop first (first + split) (.left split rule outer right)
      else
        right.focus start stop (first + split + 1) last (.right split rule left outer)

/-- A walk to a span within the hole passes the context first. -/
theorem Surrounds.focus_plug (h : Surrounds policy input x first last context)
    (d : Derivation) {start stop : Nat} (hspan : start ≤ stop)
    (hstart : first ≤ start) (hstop : stop ≤ last) :
    (context.plug d).focus start stop 0 (input.length - 1) .whole =
      d.focus start stop first last context := by
  induction h generalizing d with
  | whole => rfl
  | @left first last split rule outer right hsplit _ _ _ ih =>
      rw [Context.plug, ih _ hstart (by omega), Derivation.focus,
        if_neg (by omega), if_pos hstop]
  | @right first last split rule left outer hsplit _ _ _ ih =>
      rw [Context.plug, ih _ (by omega) hstop, Derivation.focus,
        if_neg (by omega), if_neg (by omega)]

/-- A complete derivation and the span of a hole determine the context and what
fills the hole. -/
theorem Surrounds.plug_injective {x' : Symbol} {context' : Context}
    (h : Surrounds policy input x first last context)
    (h' : Surrounds policy input x' first last context') {d d' : Derivation}
    (heq : context.plug d = context'.plug d') : context = context' ∧ d = d' := by
  have hself : ∀ (d : Derivation) (c : Context),
      d.focus first last first last c = (c, d) := by
    intro d c
    cases d <;> simp [Derivation.focus]
  have hfocus := h.focus_plug d h.bounds.1 le_rfl le_rfl
  have hfocus' := h'.focus_plug d' h.bounds.1 le_rfl le_rfl
  rw [hself] at hfocus hfocus'
  rw [heq, hfocus'] at hfocus
  exact ⟨(Prod.mk.inj hfocus).1.symm, (Prod.mk.inj hfocus).2.symm⟩

/-! ## Constituents have different spans -/

theorem Derivation.bounds_of_mem_constituents {d : Derivation}
    (hd : Derives policy input x first last d) (hspan : first ≤ last)
    {part : Constituent} (hpart : part ∈ d.constituents first last) :
    first ≤ part.first ∧ part.first ≤ part.last ∧ part.last ≤ last := by
  induction d generalizing x first last with
  | leaf rule =>
      rw [constituents, List.mem_singleton] at hpart
      subst hpart
      exact ⟨le_rfl, hspan, le_rfl⟩
  | node split rule left right ihLeft ihRight =>
      obtain ⟨rfl, hsplit, _, hleft, hright⟩ := derives_node_iff.mp hd
      rw [constituents, List.mem_cons, List.mem_append] at hpart
      rcases hpart with rfl | hpart | hpart
      · exact ⟨le_rfl, hspan, le_rfl⟩
      · have := ihLeft hleft (by omega) hpart
        omega
      · have := ihRight hright (by omega) hpart
        omega

theorem Derivation.nodup_constituents {d : Derivation}
    (hd : Derives policy input x first last d) (hspan : first ≤ last) :
    ((d.constituents first last).map fun part => (part.first, part.last)).Nodup := by
  induction d generalizing x first last with
  | leaf rule => simp [constituents]
  | node split rule left right ihLeft ihRight =>
      obtain ⟨rfl, hsplit, _, hleft, hright⟩ := derives_node_iff.mp hd
      rw [constituents, List.map_cons, List.map_append, List.nodup_cons,
        List.nodup_append]
      have hboundsLeft : ∀ part ∈ left.constituents first (first + split), _ :=
        fun part => bounds_of_mem_constituents hleft (by omega)
      have hboundsRight : ∀ part ∈ right.constituents (first + split + 1) last, _ :=
        fun part => bounds_of_mem_constituents hright (by omega)
      refine ⟨?_, ihLeft hleft (by omega), ihRight hright (by omega), ?_⟩
      · simp only [List.mem_append, List.mem_map, Prod.mk.injEq, not_or, not_exists,
          not_and]
        constructor
        · intro part hpart hfirst hlast
          have := hboundsLeft part hpart
          omega
        · intro part hpart hfirst hlast
          have := hboundsRight part hpart
          omega
      · intro a ha b hb hab
        obtain ⟨part, hpart, rfl⟩ := List.mem_map.mp ha
        obtain ⟨part', hpart', rfl⟩ := List.mem_map.mp hb
        have hspans := Prod.mk.inj hab
        have := hboundsLeft part hpart
        have := hboundsRight part' hpart'
        omega

/-- No two constituents are over one span. -/
theorem Derivation.exclusive_constituents {d : Derivation}
    (hd : Derives policy input x first last d) (hspan : first ≤ last)
    {p : Constituent → Prop} {start stop : Nat}
    (hp : ∀ part, p part → part.first = start ∧ part.last = stop) :
    (d.constituents first last).Pairwise fun part part' => ¬(p part ∧ p part') := by
  have hspans := nodup_constituents hd hspan
  apply (List.pairwise_map.mp hspans).imp
  rintro part part' hne ⟨hpart, hpart'⟩
  obtain ⟨hfirst, hlast⟩ := hp part hpart
  obtain ⟨hfirst', hlast'⟩ := hp part' hpart'
  exact hne (Prod.ext (hfirst.trans hfirst'.symm) (hlast.trans hlast'.symm))

end WeightedParsing
