import WeightedParsing.Proofs.Beam.Cell
import WeightedParsing.Proofs.Chart.BestTree

/-!
# Beams select from the candidates of their spans

The candidates for a span are the terminal rules for it and the pairs of an entry on the
left and one on the right that a binary rule joins, read off the finished beams of the two
narrower spans.  A beam is offered them one after the other and may take an entry in that
has to leave later.  What it holds in the end is a selection of the candidates that have
weight, whatever the order of the offers was.
-/

namespace WeightedParsing

variable {K S : Type} [WeightAlgebra K S]

/-- The candidates for the beam of a span, each with its weight, if narrower spans have
the given beams. -/
inductive IsBeamCandidate (model : Model K) (input : List Symbol)
    (beam : (first last : Nat) → List (BeamEntry S × S)) (first last : Nat) :
    BeamEntry S × S → Prop where
  | terminal {rule : TerminalRule}
      (hrule : rule ∈ model.policy.terminalRules input first last) :
      IsBeamCandidate model input beam first last
        (.terminal rule (model.weigh (.terminal rule)), model.weigh (.terminal rule))
  | binary {middle i j : Nat} {rule : BinaryRule} {left right : BeamEntry S × S}
      (hfirst : first ≤ middle) (hlast : middle < last)
      (hrule : rule ∈ model.policy.binaryRules first last (middle - first))
      (hleft : (beam first middle)[i]? = some left)
      (hleftRoot : left.1.root = rule.left)
      (hright : (beam (middle + 1) last)[j]? = some right)
      (hrightRoot : right.1.root = rule.right) :
      IsBeamCandidate model input beam first last
        (.binary rule (model.weigh (.binary rule)) middle i j,
          model.weigh (.binary rule) * left.2 * right.2)

theorem mem_weighted {α : Type} {candidates : List (α × S)} {candidate : α × S} :
    candidate ∈ weighted candidates ↔
      candidate ∈ candidates ∧ WeightAlgebra.isZero candidate.2 = false := by
  simp [weighted]

theorem BeamCell.mem_withRoot {cell : BeamCell S} {root : Symbol} {position : Nat}
    {weight : S} :
    (position, weight) ∈ cell.withRoot root ↔
      ∃ entry, cell.heap.toList[position]? = some (entry, weight) ∧
        entry.root = root := by
  unfold withRoot
  rw [List.mem_filterMap]
  constructor
  · rintro ⟨⟨⟨entry, weight'⟩, position'⟩, hmem, hsome⟩
    dsimp only at hsome
    split at hsome
    · rename_i hroot
      cases hsome
      exact ⟨entry, List.mem_zipIdx_iff_getElem?.mp hmem, hroot⟩
    · cases hsome
  · rintro ⟨entry, hentry, hroot⟩
    exact ⟨((entry, weight), position), List.mem_zipIdx_iff_getElem?.mpr hentry,
      if_pos hroot⟩

section Span

variable {model : Model K} {input : List Symbol} {first last : Nat}
  {candidate : BeamEntry S × S}

theorem mem_pairCandidates [AnnihilatingZero K S] {left right : BeamCell S} {split : Nat}
    {rule : BinaryRule} (hweight : WeightAlgebra.isZero candidate.2 = false) :
    candidate ∈ pairCandidates model left right split rule ↔
      ∃ i j leftEntry rightEntry,
        (left.heap.toList[i]? = some leftEntry ∧ leftEntry.1.root = rule.left) ∧
          (right.heap.toList[j]? = some rightEntry ∧ rightEntry.1.root = rule.right) ∧
            candidate = (.binary rule (model.weigh (.binary rule)) split i j,
              model.weigh (.binary rule) * leftEntry.2 * rightEntry.2) := by
  unfold pairCandidates
  dsimp only
  split
  · -- A rule that weighs nothing is passed over, and so would be what it joins.
    rename_i hzero
    simp only [List.not_mem_nil, false_iff]
    rintro ⟨i, j, leftEntry, rightEntry, _, _, rfl⟩
    have hproduct := AnnihilatingZero.isZero_mul _ rightEntry.2
      (AnnihilatingZero.isZero_mul _ leftEntry.2 hzero)
    rw [hproduct] at hweight
    contradiction
  · simp only [List.mem_flatMap, List.mem_map]
    constructor
    · rintro ⟨⟨i, leftWeight⟩, hleft, ⟨j, rightWeight⟩, hright, rfl⟩
      obtain ⟨leftEntry, hi, hleftRoot⟩ := BeamCell.mem_withRoot.mp hleft
      obtain ⟨rightEntry, hj, hrightRoot⟩ := BeamCell.mem_withRoot.mp hright
      exact ⟨i, j, _, _, ⟨hi, hleftRoot⟩, ⟨hj, hrightRoot⟩, rfl⟩
    · rintro ⟨i, j, leftEntry, rightEntry, ⟨hi, hleftRoot⟩, ⟨hj, hrightRoot⟩, rfl⟩
      exact ⟨(i, leftEntry.2), BeamCell.mem_withRoot.mpr ⟨_, hi, hleftRoot⟩,
        (j, rightEntry.2), BeamCell.mem_withRoot.mpr ⟨_, hj, hrightRoot⟩, rfl⟩

/-- A beam is offered the candidates for its span and no others. -/
theorem mem_weighted_beamCandidates [AnnihilatingZero K S]
    (hpolicy : model.policy.Covering) (hspan : first ≤ last) (hlast : last < input.length)
    {beam : (first last : Nat) → BeamCell S} :
    candidate ∈ weighted (beamCandidates model input beam first last) ↔
      IsBeamCandidate model input (fun s e => (beam s e).heap.toList) first last
          candidate ∧
        WeightAlgebra.isZero candidate.2 = false := by
  rw [mem_weighted, and_congr_left_iff]
  intro hweight
  rw [beamCandidates, List.mem_append, terminalCandidates,
    hpolicy.lexicalRules_eq hspan hlast]
  simp only [List.mem_map, List.mem_flatMap, List.mem_range, splitCandidates_eq_flatMap,
    mem_pairCandidates hweight]
  constructor
  · rintro (⟨rule, hrule, rfl⟩ |
      ⟨split, hsplit, rule, hrule, i, j, left, right, ⟨hi, hleft⟩, ⟨hj, hright⟩, rfl⟩)
    · exact .terminal hrule
    · rw [show split = first + split - first by omega] at hrule
      exact .binary (by omega) (by omega) hrule hi hleft hj hright
  · intro hcandidate
    cases hcandidate with
    | terminal hrule => exact .inl ⟨_, hrule, rfl⟩
    | @binary middle i j rule left right hfirst hmiddle hrule hi hleft hj hright =>
        have hsplit : first + (middle - first) = middle := by omega
        refine .inr ⟨middle - first, by omega, rule, hrule, i, j, left, right, ?_⟩
        rw [hsplit]
        exact ⟨⟨hi, hleft⟩, ⟨hj, hright⟩, rfl⟩

end Span

/-! ## Each candidate is offered once -/

/-- The split and the rule of a binary entry in the beam of a span from `first` on. -/
def BeamEntry.top? (first : Nat) : BeamEntry S → Option (Nat × BinaryRule)
  | terminal _ _ => none
  | binary rule _ split _ _ => some (split - first, rule)

/-- The positions of the entries with a given root. -/
def BeamCell.positions (cell : BeamCell S) (root : Symbol) : List Nat :=
  (cell.withRoot root).map Prod.fst

theorem BeamCell.nodup_positions (cell : BeamCell S) (root : Symbol) :
    (cell.positions root).Nodup := by
  have hdistinct : cell.heap.toList.zipIdx.Pairwise fun a b => a.2 ≠ b.2 := by
    rw [← List.pairwise_map (f := Prod.snd), List.zipIdx_map_snd]
    exact List.nodup_range'
  rw [positions, withRoot, List.map_filterMap, List.Nodup, List.pairwise_filterMap]
  refine hdistinct.imp ?_
  intro a b hab i hi j hj
  have hread : ∀ {c : (BeamEntry S × S) × Nat} {k : Nat},
      ((if c.1.1.root = root then some (c.2, c.1.2) else none).map Prod.fst) = some k →
        k = c.2 := by
    intro c k hk
    split at hk
    · exact (Option.some.inj hk).symm
    · cases hk
  rw [hread hi, hread hj]
  exact hab

theorem map_fst_pairCandidates (model : Model K) (left right : BeamCell S) (split : Nat)
    (rule : BinaryRule) :
    (pairCandidates model left right split rule).map Prod.fst =
      if WeightAlgebra.isZero (model.weigh (.binary rule) : S) then []
      else
        (left.positions rule.left).flatMap fun i =>
          (right.positions rule.right).map fun j =>
            .binary rule (model.weigh (.binary rule)) split i j := by
  unfold pairCandidates BeamCell.positions
  dsimp only
  split
  · rfl
  · rw [List.map_flatMap, List.flatMap_map]
    simp only [List.map_map]
    rfl

theorem nodup_map_fst_pairCandidates (model : Model K) (left right : BeamCell S)
    (split : Nat) (rule : BinaryRule) :
    ((pairCandidates model left right split rule).map Prod.fst).Nodup := by
  rw [map_fst_pairCandidates]
  split
  · exact List.nodup_nil
  · apply nodup_flatMap_of_unique (left.nodup_positions rule.left)
    · intro i _
      exact (right.nodup_positions rule.right).map fun _ _ h => (BeamEntry.binary.inj h).2.2.2.2
    · intro i i' entry hentry hentry'
      obtain ⟨j, _, rfl⟩ := List.mem_map.mp hentry
      obtain ⟨j', _, heq⟩ := List.mem_map.mp hentry'
      exact (BeamEntry.binary.inj heq).2.2.2.1.symm

theorem top?_of_mem_pairCandidates {model : Model K} {left right : BeamCell S}
    {first split : Nat} {rule : BinaryRule} {entry : BeamEntry S}
    (hentry : entry ∈ (pairCandidates model left right (first + split) rule).map Prod.fst) :
    entry.top? first = some (split, rule) := by
  rw [map_fst_pairCandidates] at hentry
  split at hentry
  · cases hentry
  · obtain ⟨i, _, hentry⟩ := List.mem_flatMap.mp hentry
    obtain ⟨j, _, rfl⟩ := List.mem_map.mp hentry
    rw [BeamEntry.top?, Nat.add_sub_cancel_left]

theorem nodup_map_fst_beamCandidates {model : Model K} (hpolicy : model.policy.Covering)
    {input : List Symbol} {first last : Nat} (hspan : first ≤ last)
    (hlast : last < input.length) (beam : (first last : Nat) → BeamCell S) :
    ((beamCandidates model input beam first last).map Prod.fst).Nodup := by
  rw [beamCandidates, terminalCandidates, hpolicy.lexicalRules_eq hspan hlast]
  simp only [splitCandidates_eq_flatMap, List.map_append, List.map_map, List.map_flatMap]
  apply nodup_leaves_append_nodes (BeamEntry.top? first)
  · exact (hpolicy.terminal_nodup input first last).map fun _ _ h =>
      (BeamEntry.terminal.inj h).1
  · intro entry hentry
    obtain ⟨rule, _, rfl⟩ := List.mem_map.mp hentry
    rfl
  · intro split _
    exact hpolicy.binary_nodup first last split
  · intro split _ rule
    exact nodup_map_fst_pairCandidates model _ _ (first + split) rule
  · intro split rule entry hentry
    exact top?_of_mem_pairCandidates hentry

namespace BeamChart

/-- What the beam of a span is to the candidates for the span. -/
structure IsBeamSelection (model : Model K) (input : List Symbol) (beamSize : Nat)
    (beam : (first last : Nat) → List (BeamEntry S × S)) (first last : Nat)
    (candidates : List (BeamEntry S × S)) : Prop where
  listing : IsListing candidates fun candidate =>
    IsBeamCandidate model input beam first last candidate ∧
      WeightAlgebra.isZero candidate.2 = false
  candidates_distinct : (candidates.map Prod.fst).Nodup
  entries_distinct : ((beam first last).map Prod.fst).Nodup
  heaviest : Heaviest Prod.snd beamSize candidates (beam first last)

/-- Every beam of a finished chart holds the heaviest of the candidates that the finished
beams of narrower spans make for its span. -/
theorem entries_are_heaviest_candidates [TotallyRanked S] [AnnihilatingZero K S]
    (model : Model K) (hpolicy : model.policy.Lawful) (beamSize : Nat)
    (beamSize_pos : 0 < beamSize) (input : List Symbol) :
    ∃ beam : (first last : Nat) → List (BeamEntry S × S),
      ∀ first last, first ≤ last → last < input.length →
        (run model beamSize beamSize_pos input : BeamChart S).entries first last =
            .ok (beam first last) ∧
          ∃ candidates,
            IsBeamSelection model input beamSize beam first last candidates := by
  refine ⟨fun s e => ((run model beamSize beamSize_pos input).cells.get s e).heap.toList,
    ?_⟩
  intro first last hspan hlast
  have hheaviest := BoundedHeap.heaviest_offerAll_empty beamSize_pos
    ((run model beamSize beamSize_pos input : BeamChart S).candidates model input first
      last)
  rw [← heap_run (S := S) model beamSize beamSize_pos input hspan hlast] at hheaviest
  have hdistinct : (((run model beamSize beamSize_pos input : BeamChart S).candidates model
      input first last).map Prod.fst).Nodup :=
    (nodup_map_fst_beamCandidates hpolicy hspan hlast _).sublist
      (List.filter_sublist.map Prod.fst)
  refine ⟨Chart.answer_of_le hspan hlast _, _, ⟨hdistinct.of_map _, fun candidate => ?_⟩,
    hdistinct, hheaviest.nodup_map hdistinct, hheaviest⟩
  exact mem_weighted_beamCandidates hpolicy hspan hlast

/-- A beam of one entry has room for the compound of two words, and then none for what
joins the words and weighs less. -/
theorem entries_are_heaviest_candidates_compound :
    ∃ entries : List (BeamEntry (MaxProduct Nat) × MaxProduct Nat),
      (run Chart.compoundModel 1 Nat.one_pos [⟨1⟩, ⟨1⟩] :
          BeamChart (MaxProduct Nat)).entries 0 1 = .ok entries ∧
        entries.length = 1 ∧
        ∀ entry ∈ entries, Ranked.le ⟨5⟩ entry.2 = true := by
  obtain ⟨beam, hbeam⟩ := entries_are_heaviest_candidates (S := MaxProduct Nat)
    Chart.compoundModel (Policy.scan_lawful (by decide) (by decide)) 1 Nat.one_pos
    [⟨1⟩, ⟨1⟩]
  obtain ⟨hread, candidates, hselection⟩ := hbeam 0 1 (by decide) (by decide)
  have hcompound : (BeamEntry.terminal ⟨⟨0⟩, [⟨1⟩, ⟨1⟩], none⟩ ⟨5⟩, ⟨5⟩) ∈ candidates :=
    (hselection.listing.mem_iff _).mpr ⟨.terminal (by decide), rfl⟩
  have hpos := List.length_pos_of_mem hcompound
  have hlength : (beam 0 1).length = 1 := by
    obtain ⟨_, _, hlength, _⟩ := hselection.heaviest
    omega
  refine ⟨beam 0 1, hread, hlength, ?_⟩
  intro entry hentry
  by_cases hkept : (BeamEntry.terminal ⟨⟨0⟩, [⟨1⟩, ⟨1⟩], none⟩ ⟨5⟩, ⟨5⟩) ∈ beam 0 1
  · obtain ⟨only, honly⟩ := List.length_eq_one_iff.mp hlength
    rw [honly, List.mem_singleton] at hkept hentry
    rw [hentry, ← hkept]
    rfl
  · exact hselection.heaviest.le_of_not_mem hentry hcompound hkept

end BeamChart

end WeightedParsing
