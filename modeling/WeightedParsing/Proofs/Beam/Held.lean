import WeightedParsing.Proofs.Beam.Cell
import WeightedParsing.Proofs.Derivation.Tree

/-!
# The derivations that a beam holds

Every entry of a beam spells out a derivation: a binary entry joins those at the
positions that it names in the beams of two narrower spans.  A candidate therefore comes
with a derivation, and what a beam keeps of its candidates is a selection of derivations.
By induction on the width of the span, every position of a finished beam leads to the
tree of the derivation held there, and no derivation is held twice.
-/

namespace WeightedParsing

variable {K S : Type} [WeightAlgebra K S]

/-! ## Candidates with their derivations -/

/-- The derivations of a list with a given root, each with its position. -/
def withPosition (held : List Derivation) (root : Symbol) : List (Derivation × Nat) :=
  held.zipIdx.filter fun entry => entry.1.root = root

def terminalPairs (S : Type) [WeightAlgebra K S] (model : Model K) (input : List Symbol)
    (first last : Nat) : List (BeamEntry S × Derivation) :=
  (model.policy.lexicalRules input first last).map fun rule =>
    (.terminal rule (model.weigh (.terminal rule)), .leaf rule)

def joinPairs (S : Type) [WeightAlgebra K S] (model : Model K)
    (lefts rights : List Derivation) (first split : Nat) (rule : BinaryRule) :
    List (BeamEntry S × Derivation) :=
  if WeightAlgebra.isZero (model.weigh (.binary rule) : S) then []
  else
    (withPosition lefts rule.left).flatMap fun (left, i) =>
      (withPosition rights rule.right).map fun (right, j) =>
        (.binary rule (model.weigh (.binary rule)) (first + split) i j,
          .node split rule left right)

/-- The candidates for a span, each with its derivation, if narrower beams hold the
derivations of `held`. -/
def candidatePairs (S : Type) [WeightAlgebra K S] (model : Model K) (input : List Symbol)
    (held : (first last : Nat) → List Derivation) (first last : Nat) :
    List (BeamEntry S × Derivation) :=
  terminalPairs S model input first last ++
    (List.range (last - first)).flatMap fun split =>
      (model.policy.binaryRules first last split).flatMap
        (joinPairs S model (held first (first + split)) (held (first + split + 1) last)
          first split)

/-- The derivations that a span gets from those held for narrower ones. -/
def candidateDerivations (S : Type) [WeightAlgebra K S] (model : Model K)
    (input : List Symbol) (held : (first last : Nat) → List Derivation)
    (first last : Nat) : List Derivation :=
  (model.policy.lexicalRules input first last).map .leaf ++
    (List.range (last - first)).flatMap fun split =>
      (model.policy.binaryRules first last split).flatMap fun rule =>
        if WeightAlgebra.isZero (model.weigh (.binary rule) : S) then []
        else
          joins split rule
            ((held first (first + split)).filter fun d => d.root = rule.left)
            ((held (first + split + 1) last).filter fun d => d.root = rule.right)

def pairWeight (model : Model K) (pair : BeamEntry S × Derivation) : BeamEntry S × S :=
  (pair.1, pair.2.weight model)

/-- The entries of a beam have the roots and the weights of a list of derivations. -/
def BeamCell.Matches (cell : BeamCell S) (model : Model K) (held : List Derivation) :
    Prop :=
  (cell.heap.toList.map fun entry => (entry.1.root, entry.2)) =
    held.map fun d => (d.root, d.weight model)

section Candidates

variable {model : Model K} {input : List Symbol}
  {held : (first last : Nat) → List Derivation}

theorem map_fst_withPosition (derivations : List Derivation) (root : Symbol) :
    (withPosition derivations root).map Prod.fst =
      derivations.filter fun d => d.root = root := by
  have hfilter := List.filter_map (f := (Prod.fst : Derivation × Nat → Derivation))
    (p := fun d => d.root = root) (l := derivations.zipIdx)
  rw [List.zipIdx_map_fst] at hfilter
  exact hfilter.symm

theorem map_snd_joinPairs (lefts rights : List Derivation) (first split : Nat)
    (rule : BinaryRule) :
    (joinPairs S model lefts rights first split rule).map Prod.snd =
      if WeightAlgebra.isZero (model.weigh (.binary rule) : S) then []
      else
        joins split rule (lefts.filter fun d => d.root = rule.left)
          (rights.filter fun d => d.root = rule.right) := by
  unfold joinPairs
  split
  · rfl
  · rw [← map_fst_withPosition, ← map_fst_withPosition, joins, List.map_flatMap,
      List.flatMap_map]
    simp only [List.map_map]
    rfl

theorem map_snd_candidatePairs (first last : Nat) :
    (candidatePairs S model input held first last).map Prod.snd =
      candidateDerivations S model input held first last := by
  simp only [candidatePairs, candidateDerivations, terminalPairs, List.map_append,
    List.map_map, List.map_flatMap, map_snd_joinPairs]
  rfl

theorem withRoot_eq {cell : BeamCell S} {derivations : List Derivation}
    (hcell : cell.Matches model derivations) (root : Symbol) :
    cell.withRoot root =
      (withPosition derivations root).map fun (d, position) =>
        (position, d.weight model) := by
  have hread : ∀ {α : Type} (entries : List α) (f : α → Symbol × S),
      (entries.zipIdx.filterMap fun (a, position) =>
          if (f a).1 = root then some (position, (f a).2) else none) =
        (entries.map f).zipIdx.filterMap fun (a, position) =>
          if a.1 = root then some (position, a.2) else none := by
    intro α entries f
    rw [List.zipIdx_map, List.filterMap_map]
    rfl
  have hentries := hread cell.heap.toList fun entry => (entry.1.root, entry.2)
  have hderivations := hread derivations fun d => (d.root, d.weight model)
  unfold BeamCell.Matches at hcell
  rw [hcell, ← hderivations] at hentries
  unfold BeamCell.withRoot withPosition
  rw [hentries, ← List.filterMap_eq_map, List.filterMap_filter]
  simp

theorem pairCandidates_eq {left right : BeamCell S} {lefts rights : List Derivation}
    (hleft : left.Matches model lefts) (hright : right.Matches model rights)
    (first split : Nat) (rule : BinaryRule) :
    pairCandidates model left right (first + split) rule =
      (joinPairs S model lefts rights first split rule).map (pairWeight model) := by
  unfold pairCandidates joinPairs
  by_cases hzero : WeightAlgebra.isZero (model.weigh (.binary rule) : S) = true
  · simp [hzero]
  · dsimp only
    rw [if_neg hzero, if_neg hzero, withRoot_eq hleft, withRoot_eq hright,
      List.map_flatMap, List.flatMap_map]
    simp only [List.map_map]
    rfl

theorem splitCandidates_eq {beam : (first last : Nat) → BeamCell S}
    {first last split : Nat}
    (hleft : (beam first (first + split)).Matches model (held first (first + split)))
    (hright : (beam (first + split + 1) last).Matches model
      (held (first + split + 1) last)) :
    splitCandidates model beam first last split =
      ((model.policy.binaryRules first last split).flatMap
        (joinPairs S model (held first (first + split)) (held (first + split + 1) last)
          first split)).map (pairWeight model) := by
  rw [splitCandidates_eq_flatMap, List.map_flatMap]
  apply List.flatMap_congr
  intro rule _
  exact pairCandidates_eq hleft hright first split rule

theorem beamCandidates_eq {beam : (first last : Nat) → BeamCell S} {first last : Nat}
    (hbeam : ∀ split < last - first,
      (beam first (first + split)).Matches model (held first (first + split)) ∧
        (beam (first + split + 1) last).Matches model (held (first + split + 1) last)) :
    beamCandidates model input beam first last =
      (candidatePairs S model input held first last).map (pairWeight model) := by
  unfold beamCandidates candidatePairs
  rw [List.map_append, List.map_flatMap]
  congr 1
  · simp [terminalCandidates, terminalPairs, pairWeight, Derivation.weight]
  · apply List.flatMap_congr
    intro split hsplit
    obtain ⟨hleft, hright⟩ := hbeam split (List.mem_range.mp hsplit)
    exact splitCandidates_eq hleft hright

theorem mem_withPosition {derivations : List Derivation} {root : Symbol}
    {d : Derivation} {position : Nat} :
    (d, position) ∈ withPosition derivations root ↔
      derivations[position]? = some d ∧ d.root = root := by
  simp [withPosition, List.mem_zipIdx_iff_getElem?]

theorem mem_candidatePairs {first last : Nat} {pair : BeamEntry S × Derivation}
    (hpair : pair ∈ candidatePairs S model input held first last) :
    (∃ rule ∈ model.policy.lexicalRules input first last,
      pair = (.terminal rule (model.weigh (.terminal rule)), .leaf rule)) ∨
    ∃ split < last - first, ∃ rule ∈ model.policy.binaryRules first last split,
      ∃ left i right j,
        ((held first (first + split))[i]? = some left ∧ left.root = rule.left) ∧
          ((held (first + split + 1) last)[j]? = some right ∧ right.root = rule.right) ∧
            pair = (.binary rule (model.weigh (.binary rule)) (first + split) i j,
              .node split rule left right) := by
  unfold candidatePairs at hpair
  rcases List.mem_append.mp hpair with hpair | hpair
  · obtain ⟨rule, hrule, rfl⟩ := List.mem_map.mp hpair
    exact .inl ⟨rule, hrule, rfl⟩
  · obtain ⟨split, hsplit, hpair⟩ := List.mem_flatMap.mp hpair
    obtain ⟨rule, hrule, hpair⟩ := List.mem_flatMap.mp hpair
    unfold joinPairs at hpair
    split at hpair
    · cases hpair
    · obtain ⟨⟨left, i⟩, hleft, hpair⟩ := List.mem_flatMap.mp hpair
      obtain ⟨⟨right, j⟩, hright, rfl⟩ := List.mem_map.mp hpair
      exact .inr ⟨split, List.mem_range.mp hsplit, rule, hrule, left, i, right, j,
        mem_withPosition.mp hleft, mem_withPosition.mp hright, rfl⟩

theorem nodup_candidateDerivations {first last : Nat} (hpolicy : model.policy.Covering)
    (hspan : first ≤ last) (hlast : last < input.length)
    (hheld : ∀ split < last - first,
      (held first (first + split)).Nodup ∧ (held (first + split + 1) last).Nodup) :
    (candidateDerivations S model input held first last).Nodup := by
  unfold candidateDerivations
  rw [hpolicy.lexicalRules_eq hspan hlast]
  apply nodup_leaves_append_nodes Derivation.top?
    (nodup_leaves (hpolicy.terminal_nodup input first last)) fun _ => top?_of_mem_leaves
  · intro split _
    exact hpolicy.binary_nodup first last split
  · intro split hsplit rule
    split
    · exact List.nodup_nil
    · obtain ⟨hleft, hright⟩ := hheld split hsplit
      exact nodup_joins (hleft.filter _) (hright.filter _)
  · intro split rule d hd
    split at hd
    · cases hd
    · exact top?_of_mem_joins hd

end Candidates

/-! ## Positions and trees -/

namespace BeamChart

/-- Following the positions in an entry ends in a tree.  Nothing keeps an entry from
naming a span that is no part of its own here, and the spans of children have to meet. -/
inductive Rebuilds (chart : BeamChart S) :
    (first last position : Nat) → ParseTree S → Prop where
  | leaf {first last position : Nat} {rule : TerminalRule} {ruleWeight weight : S}
      (hentry : (chart.cells.get first last).heap.get? position =
        some (.terminal rule ruleWeight, weight)) :
      Rebuilds chart first last position (.leaf rule ruleWeight first last)
  | node {first last position split i j : Nat} {rule : BinaryRule}
      {ruleWeight weight : S} {left right tree : ParseTree S}
      (hentry : (chart.cells.get first last).heap.get? position =
        some (.binary rule ruleWeight split i j, weight))
      (hleft : Rebuilds chart first split i left)
      (hright : Rebuilds chart (split + 1) last j right)
      (hjoin : ParseTree.joinAdjacent rule ruleWeight left right = .ok tree) :
      Rebuilds chart first last position tree

/-- The derivations in the beam of a span, in the order of their positions. -/
def held (chart : BeamChart S) (first last : Nat) : List Derivation :=
  ((List.range (chart.cells.get first last).heap.size).filterMap
    (chart.treeAt first last)).map ParseTree.derivation

structure SpellsAt (chart : BeamChart S) (model : Model K) (first last position : Nat)
    (d : Derivation) : Prop where
  rebuilds : chart.Rebuilds first last position (d.tree model first last)
  treeAt_eq : chart.treeAt first last position = some (d.tree model first last)

/-- The positions of a beam lead to the trees of different derivations, with the weights
of the entries there. -/
structure Spells (chart : BeamChart S) (model : Model K) (input : List Symbol)
    (first last : Nat) (derivations : List Derivation) : Prop where
  entries_match : (chart.cells.get first last).Matches model derivations
  nodup : derivations.Nodup
  derives : ∀ d ∈ derivations, Derives model.policy input d.root first last d
  spellsAt : ∀ (position : Nat) (d : Derivation), derivations[position]? = some d →
    chart.SpellsAt model first last position d

/-- The beams that a span is joined from spell out what they hold. -/
def PartsSpell (chart : BeamChart S) (model : Model K) (input : List Symbol)
    (first last : Nat) : Prop :=
  ∀ split < last - first,
    chart.Spells model input first (first + split) (chart.held first (first + split)) ∧
      chart.Spells model input (first + split + 1) last
        (chart.held (first + split + 1) last)

section Spells

variable {chart : BeamChart S} {model : Model K} {input : List Symbol}
  {first last : Nat} {derivations : List Derivation}

theorem Spells.length_eq (h : chart.Spells model input first last derivations) :
    derivations.length = (chart.cells.get first last).heap.size := by
  have hlength := congrArg List.length h.entries_match
  rw [List.length_map, List.length_map] at hlength
  exact hlength.symm

theorem filterMap_getElem?_range {α : Type} (entries : List α) :
    ((List.range entries.length).filterMap fun i => entries[i]?) = entries := by
  induction entries using List.reverseRecOn with
  | nil => rfl
  | append_singleton rest a ih =>
      have hrest : ((List.range rest.length).filterMap fun i => (rest ++ [a])[i]?) =
          (List.range rest.length).filterMap fun i => rest[i]? := by
        apply List.filterMap_congr
        intro i hi
        exact List.getElem?_append_left (List.mem_range.mp hi)
      rw [List.length_append, List.length_singleton, List.range_succ,
        List.filterMap_append, hrest, ih]
      simp

theorem Spells.trees_eq (h : chart.Spells model input first last derivations) :
    (List.range (chart.cells.get first last).heap.size).filterMap
        (chart.treeAt first last) =
      derivations.map fun d => d.tree model first last := by
  have hread : ∀ position ∈ List.range derivations.length,
      chart.treeAt first last position =
        derivations[position]?.map fun d => d.tree model first last := by
    intro position hposition
    have hget := List.getElem?_eq_getElem (List.mem_range.mp hposition)
    rw [(h.spellsAt position _ hget).treeAt_eq, hget, Option.map_some]
  rw [← h.length_eq, List.filterMap_congr hread, ← List.map_filterMap,
    filterMap_getElem?_range]

theorem Spells.held_eq (h : chart.Spells model input first last derivations) :
    chart.held first last = derivations := by
  rw [held, h.trees_eq, List.map_map]
  conv_rhs => rw [← List.map_id derivations]
  apply List.map_congr_left
  intro d hd
  exact (h.derives d hd).derivation_tree model

theorem SpellsAt.leaf {position : Nat} {rule : TerminalRule} {weight : S}
    (hentry : (chart.cells.get first last).heap.get? position =
      some (.terminal rule (model.weigh (.terminal rule)), weight)) :
    chart.SpellsAt model first last position (.leaf rule) where
  rebuilds := .leaf hentry
  treeAt_eq := by
    rw [treeAt, hentry]
    rfl

theorem SpellsAt.node {position split i j : Nat} {rule : BinaryRule}
    {left right : Derivation} {weight : S} (hsplit : split < last - first)
    (hentry : (chart.cells.get first last).heap.get? position =
      some (.binary rule (model.weigh (.binary rule)) (first + split) i j, weight))
    (hleft : chart.SpellsAt model first (first + split) i left)
    (hright : chart.SpellsAt model (first + split + 1) last j right) :
    chart.SpellsAt model first last position (.node split rule left right) where
  rebuilds := by
    refine .node hentry hleft.rebuilds hright.rebuilds ?_
    exact if_pos (by simp)
  treeAt_eq := by
    have hguard : first ≤ first + split ∧ first + split < last := by omega
    rw [treeAt, hentry]
    simp only [dif_pos hguard, hleft.treeAt_eq, hright.treeAt_eq, Derivation.tree]

theorem PartsSpell.candidate (hparts : chart.PartsSpell model input first last)
    (hpolicy : model.policy.Covering) (hspan : first ≤ last) (hlast : last < input.length)
    {pair : BeamEntry S × Derivation}
    (hpair : pair ∈ candidatePairs S model input chart.held first last) :
    pair.1.root = pair.2.root ∧ Derives model.policy input pair.2.root first last pair.2 ∧
      ∀ position, (chart.cells.get first last).heap.get? position =
          some (pairWeight model pair) →
        chart.SpellsAt model first last position pair.2 := by
  rcases mem_candidatePairs hpair with
    ⟨rule, hrule, rfl⟩ |
      ⟨split, hsplit, rule, hrule, left, i, right, j, ⟨hi, hleftRoot⟩,
        ⟨hj, hrightRoot⟩, rfl⟩
  · rw [hpolicy.lexicalRules_eq hspan hlast] at hrule
    exact ⟨rfl, .leaf hrule, fun position hentry => .leaf hentry⟩
  · obtain ⟨hleft, hright⟩ := hparts split hsplit
    have hleftDerives := hleft.derives left (List.mem_of_getElem? hi)
    have hrightDerives := hright.derives right (List.mem_of_getElem? hj)
    rw [hleftRoot] at hleftDerives
    rw [hrightRoot] at hrightDerives
    refine ⟨rfl, .node hsplit hrule hleftDerives hrightDerives, ?_⟩
    intro position hentry
    exact .node hsplit hentry (hleft.spellsAt i left hi) (hright.spellsAt j right hj)

theorem PartsSpell.spells_of_kept (hparts : chart.PartsSpell model input first last)
    (hpolicy : model.policy.Covering) (hspan : first ≤ last) (hlast : last < input.length)
    {kept : List (BeamEntry S × Derivation)}
    (hheap : (chart.cells.get first last).heap.toList = kept.map (pairWeight model))
    (hkept : ∀ pair ∈ kept, pair ∈ candidatePairs S model input chart.held first last)
    (hnodup : (kept.map Prod.snd).Nodup) :
    chart.Spells model input first last (kept.map Prod.snd) := by
  have hpairs := fun pair hpair => hparts.candidate hpolicy hspan hlast (hkept pair hpair)
  refine ⟨?_, hnodup, ?_, ?_⟩
  · unfold BeamCell.Matches
    rw [hheap, List.map_map, List.map_map]
    apply List.map_congr_left
    intro pair hpair
    exact Prod.ext (hpairs pair hpair).1 rfl
  · intro d hd
    obtain ⟨pair, hpair, rfl⟩ := List.mem_map.mp hd
    exact (hpairs pair hpair).2.1
  · intro position d hd
    rw [List.getElem?_map, Option.map_eq_some_iff] at hd
    obtain ⟨pair, hpair, rfl⟩ := hd
    apply (hpairs pair (List.mem_of_getElem? hpair)).2.2
    rw [BoundedHeap.get?, ← Array.getElem?_toList]
    change (chart.cells.get first last).heap.toList[position]? = _
    rw [hheap, List.getElem?_map, hpair, Option.map_some]

end Spells

/-! ## Finished charts -/

section Run

variable (model : Model K) (beamSize : Nat) (beamSize_pos : 0 < beamSize)
  (input : List Symbol) {first last : Nat}

/-- The derivations that have weight among those a span gets from narrower ones. -/
def offered (chart : BeamChart S) (model : Model K) (input : List Symbol)
    (first last : Nat) : List Derivation :=
  (candidateDerivations S model input chart.held first last).filter
    (Derivation.hasWeight S model)

theorem candidates_eq {chart : BeamChart S}
    (hparts : chart.PartsSpell model input first last) :
    chart.candidates model input first last =
      ((candidatePairs S model input chart.held first last).filter fun pair =>
        pair.2.hasWeight S model).map (pairWeight model) := by
  have hmatches : ∀ split < last - first,
      (chart.cells.get first (first + split)).Matches model
          (chart.held first (first + split)) ∧
        (chart.cells.get (first + split + 1) last).Matches model
          (chart.held (first + split + 1) last) :=
    fun split hsplit =>
      ⟨(hparts split hsplit).1.entries_match, (hparts split hsplit).2.entries_match⟩
  rw [candidates, beamCandidates_eq hmatches, weighted, List.filter_map]
  rfl

theorem offered_eq (chart : BeamChart S) :
    chart.offered model input first last =
      ((candidatePairs S model input chart.held first last).filter fun pair =>
        pair.2.hasWeight S model).map Prod.snd := by
  have hfilter := List.filter_map (f := (Prod.snd : BeamEntry S × Derivation → Derivation))
    (p := Derivation.hasWeight S model)
    (l := candidatePairs S model input chart.held first last)
  rw [map_snd_candidatePairs] at hfilter
  exact hfilter

variable [TotallyRanked S]

/-- What a beam of a finished chart holds is a selection of what it is offered. -/
theorem spells_run (hpolicy : model.policy.Covering) (hspan : first ≤ last)
    (hlast : last < input.length) :
    (run model beamSize beamSize_pos input : BeamChart S).Spells model input first last
        ((run model beamSize beamSize_pos input : BeamChart S).held first last) ∧
      Heaviest (Derivation.weight (S := S) model) beamSize
        ((run model beamSize beamSize_pos input : BeamChart S).offered model input first
          last)
        ((run model beamSize beamSize_pos input : BeamChart S).held first last) := by
  induction hwidth : last - first using Nat.strong_induction_on
    generalizing first last with
  | _ width ih =>
      -- A beam selects from its candidates, and these are joined from beams for which the
      -- statement is known already.
      generalize hchart : (run model beamSize beamSize_pos input : BeamChart S) = chart
        at ih ⊢
      have hparts : chart.PartsSpell model input first last := by
        intro split hsplit
        have hleft : first ≤ first + split := by omega
        have hright : first + split + 1 ≤ last := by omega
        exact ⟨(ih split (by omega) hleft (by omega) (by omega)).1,
          (ih (last - (first + split + 1)) (by omega) hright hlast rfl).1⟩
      have hheap := heap_run (S := S) model beamSize beamSize_pos input hspan hlast
      rw [hchart, candidates_eq model input hparts] at hheap
      have hheaviest := BoundedHeap.heaviest_offerAll_empty beamSize_pos
        (((candidatePairs S model input chart.held first last).filter fun pair =>
          pair.2.hasWeight S model).map (pairWeight model))
      rw [← hheap] at hheaviest
      obtain ⟨kept, hkeptHeap, hkept⟩ := hheaviest.exists_of_map
      have hselected : Heaviest (Derivation.weight (S := S) model) beamSize
          (chart.offered model input first last) (kept.map Prod.snd) := by
        rw [offered_eq]
        exact hkept.map Prod.snd
      have hnodup : (kept.map Prod.snd).Nodup := by
        apply hselected.nodup
        apply List.Nodup.filter
        apply nodup_candidateDerivations hpolicy hspan hlast
        intro split hsplit
        exact ⟨(hparts split hsplit).1.nodup, (hparts split hsplit).2.nodup⟩
      have hspells := hparts.spells_of_kept hpolicy hspan hlast hkeptHeap
        (fun pair hpair => List.mem_of_mem_filter (hkept.mem hpair)) hnodup
      rw [hspells.held_eq]
      exact ⟨hspells, hselected⟩

theorem length_candidates_run (hpolicy : model.policy.Covering) (hlast : last < input.length) :
    ((run model beamSize beamSize_pos input : BeamChart S).candidates model input first
        last).length =
      ((run model beamSize beamSize_pos input : BeamChart S).offered model input first
        last).length := by
  rw [offered_eq, List.length_map, candidates_eq, List.length_map]
  intro split hsplit
  constructor
  · exact (spells_run model beamSize beamSize_pos input hpolicy (by omega) (by omega)).1
  · exact (spells_run model beamSize beamSize_pos input hpolicy (by omega) hlast).1

end Run

end BeamChart

end WeightedParsing
