import WeightedParsing.Proofs.Beam.Cell
import WeightedParsing.Proofs.Chart.Backpointer
import WeightedParsing.Proofs.Derivation.Spelling

/-!
# Trees of a beam spell derivations

An entry of a beam applies a rule that the policy allows to subtrees of the right roots:
those that it names by their positions were found there by their roots.  So the trees of a
finished chart spell derivations, whatever a beam had no room for and however weights
compare.
-/

namespace WeightedParsing

variable {K S : Type} [WeightAlgebra K S] {model : Model K} {input : List Symbol}

theorem BeamCell.get?_of_mem_withRoot {cell : BeamCell S} {root : Symbol}
    {position : Nat} {weight : S} (h : (position, weight) ∈ cell.withRoot root) :
    ∃ entry, cell.heap.get? position = some (entry, weight) ∧ entry.root = root := by
  obtain ⟨⟨⟨entry, _⟩, _⟩, hheld, hsome⟩ := List.mem_filterMap.mp h
  dsimp only at hsome
  split at hsome
  · rename_i hroot
    cases hsome
    have hget := List.mem_zipIdx_iff_getElem?.mp hheld
    rw [BoundedHeap.toList, Array.getElem?_toList] at hget
    exact ⟨entry, hget, hroot⟩
  · contradiction

/-- An entry over a span by a rule that the policy allows there, whose subtrees have the
roots that the rule asks for. -/
inductive BeamEntry.Allowed (model : Model K) (input : List Symbol)
    (beam : (first last : Nat) → BeamCell S) (first last : Nat) : BeamEntry S → Prop where
  | terminal {rule : TerminalRule}
      (hrule : rule ∈ model.policy.terminalRules input first last) :
      Allowed model input beam first last (.terminal rule (model.weigh (.terminal rule)))
  | binary {split i j : Nat} {rule : BinaryRule} {left right : BeamEntry S × S}
      (hsplit : split < last - first)
      (hrule : rule ∈ model.policy.binaryRules first last split)
      (hleft : (beam first (first + split)).heap.get? i = some left)
      (hleftRoot : left.1.root = rule.left)
      (hright : (beam (first + split + 1) last).heap.get? j = some right)
      (hrightRoot : right.1.root = rule.right) :
      Allowed model input beam first last
        (.binary rule (model.weigh (.binary rule)) (first + split) i j)

theorem allowed_of_mem_beamCandidates {beam : (first last : Nat) → BeamCell S}
    {first last : Nat} {candidate : BeamEntry S × S}
    (h : candidate ∈ beamCandidates model input beam first last) :
    candidate.1.Allowed model input beam first last := by
  rcases List.mem_append.mp h with h | h
  · obtain ⟨rule, hrule, rfl⟩ := List.mem_map.mp h
    exact .terminal (model.policy.lexicalRules_subset input first last hrule)
  · obtain ⟨split, hsplit, h⟩ := List.mem_flatMap.mp h
    unfold splitCandidates at h
    dsimp only at h
    split at h
    · contradiction
    · obtain ⟨rule, hrule, h⟩ := List.mem_flatMap.mp h
      unfold pairCandidates at h
      dsimp only at h
      split at h
      · contradiction
      · obtain ⟨⟨i, _⟩, hi, h⟩ := List.mem_flatMap.mp h
        obtain ⟨⟨j, _⟩, hj, rfl⟩ := List.mem_map.mp h
        obtain ⟨_, hleft, hleftRoot⟩ := BeamCell.get?_of_mem_withRoot hi
        obtain ⟨_, hright, hrightRoot⟩ := BeamCell.get?_of_mem_withRoot hj
        exact .binary (List.mem_range.mp hsplit) hrule hleft hleftRoot hright hrightRoot

namespace BeamChart

variable (model : Model K) (beamSize : Nat) (beamSize_pos : 0 < beamSize)
  (input : List Symbol) {first last : Nat}

theorem allowed_of_get? (hspan : first ≤ last) (hlast : last < input.length)
    {position : Nat} {entry : BeamEntry S × S}
    (hentry : ((run model beamSize beamSize_pos input : BeamChart S).cells.get first
      last).heap.get? position = some entry) :
    entry.1.Allowed model input (run model beamSize beamSize_pos input).cells.get first
      last := by
  have hheld : entry ∈ ((run model beamSize beamSize_pos input : BeamChart S).cells.get
      first last).heap.toList :=
    Array.mem_toList_iff.mpr (Array.mem_of_getElem? hentry)
  rw [heap_run model beamSize beamSize_pos input hspan hlast] at hheld
  have hcandidate := BoundedHeap.toList_offerAll_empty_subset beamSize_pos _ hheld
  exact allowed_of_mem_beamCandidates (List.mem_of_mem_filter hcandidate)

/-- A position of a beam leads to a derivation with the root of the entry there. -/
theorem spells_treeAt (hspan : first ≤ last) (hlast : last < input.length)
    {position : Nat} {entry : BeamEntry S × S}
    (hentry : ((run model beamSize beamSize_pos input : BeamChart S).cells.get first
      last).heap.get? position = some entry)
    {tree : ParseTree S}
    (htree : (run model beamSize beamSize_pos input).treeAt first last position =
      some tree) :
    tree.Spells model input entry.1.root first last := by
  induction hwidth : last - first using Nat.strong_induction_on
    generalizing first last position entry tree with
  | _ w ih =>
      have hallowed := allowed_of_get? model beamSize beamSize_pos input hspan hlast hentry
      obtain ⟨entry, weight⟩ := entry
      rw [treeAt, hentry] at htree
      cases hallowed with
      | terminal hrule =>
          cases htree
          exact ParseTree.spells_leaf hrule
      | @binary split i j rule left right hsplit hrule hleft hleftRoot hright hrightRoot =>
          dsimp only at htree
          split at htree
          · split at htree
            · rename_i leftTree rightTree hleftTree hrightTree
              cases htree
              have hleftSpells :=
                ih _ (by omega) (by omega) (by omega) hleft hleftTree rfl
              have hrightSpells := ih _ (by omega) (by omega) hlast hright hrightTree rfl
              rw [hleftRoot] at hleftSpells
              rw [hrightRoot] at hrightSpells
              exact .join hsplit hrule hleftSpells hrightSpells
            · contradiction
          · contradiction

theorem exists_entry_of_treeAt {chart : BeamChart S} {position : Nat} {tree : ParseTree S}
    (htree : chart.treeAt first last position = some tree) :
    ∃ entry, (chart.cells.get first last).heap.get? position = some entry := by
  rw [treeAt] at htree
  cases hentry : (chart.cells.get first last).heap.get? position with
  | none =>
      rw [hentry] at htree
      contradiction
  | some entry => exact ⟨entry, rfl⟩

/-- A tree of a chart spells a derivation of the whole input, its root multiplied by the
weight that the prior gives to it. -/
theorem exists_of_mem_trees [Scalar K] {prior : RootPrior K} {tree : ParseTree S}
    (htree : tree ∈ (run model beamSize beamSize_pos input : BeamChart S).trees prior) :
    ∃ part : ParseTree S, part.Spells model input part.root 0 (input.length - 1) ∧
      tree = part.multiply (prior.weight part.root) := by
  unfold trees at htree
  split at htree
  · contradiction
  · rename_i hlength
    have hlast : input.length - 1 < input.length :=
      Nat.sub_one_lt (show input.length ≠ 0 from hlength)
    have hsorted := (Ranked.sortDescending_perm _ _).mem_iff.mp htree
    obtain ⟨part, hpart, rfl⟩ := List.mem_map.mp (List.mem_of_mem_filter hsorted)
    obtain ⟨position, _, htreeAt⟩ := List.mem_filterMap.mp hpart
    obtain ⟨entry, hentry⟩ := exists_entry_of_treeAt htreeAt
    have hspells := spells_treeAt model beamSize beamSize_pos input (Nat.zero_le _)
      hlast hentry htreeAt
    refine ⟨part, ?_, rfl⟩
    rwa [hspells.root_eq]

end BeamChart

end WeightedParsing
