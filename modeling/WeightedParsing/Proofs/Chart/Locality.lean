import WeightedParsing.Proofs.Chart.BestTree
import WeightedParsing.Proofs.Chart.Extraction
import WeightedParsing.Proofs.Chart.TreeImage
import WeightedParsing.Proofs.Grammar.Index

/-!
# The inside pass is local

What the inside pass finds out about a span depends on the words of the span alone.  The
charts of an input and of a part of it are filled in different orders, and the spans of the
one stand elsewhere in the other.  Where a policy allows the same rules, every cell of the
part is nevertheless found again in the chart of the whole, with the same back-pointers in
the same heaps, and so are the trees, apart from the positions of their leaves.  Nothing is
asked of how weights add, multiply or compare.
-/

namespace WeightedParsing

variable {K S : Type} [WeightAlgebra K S]

/-! ## The same rules for a part of the input -/

/-- The policy allows the same rules for the spans of a part as for those spans of the whole
input, in which the part begins at `start`. -/
structure Policy.LocalTo (policy : Policy) (input part : List Symbol) (start : Nat) :
    Prop where
  within : start + part.length ≤ input.length
  lexicalRules_eq : ∀ first last, first ≤ last → last < part.length →
    policy.lexicalRules input (start + first) (start + last) =
      policy.lexicalRules part first last
  binaryRules_eq : ∀ first last split, first ≤ last → last < part.length →
    policy.binaryRules (start + first) (start + last) split =
      policy.binaryRules first last split

theorem inputSlice_eq_some_iff {input part : List Symbol} {first last : Nat} :
    inputSlice input first last = some part ↔
      first ≤ last ∧ last < input.length ∧
        (input.drop first).take (last + 1 - first) = part := by
  unfold inputSlice
  split
  · rename_i hspan
    simp only [Bool.and_eq_true, decide_eq_true_eq] at hspan
    simp [hspan]
  · rename_i hspan
    simp only [Bool.and_eq_true, decide_eq_true_eq] at hspan
    simp
    tauto

/-- A slice of a slice is a slice of the whole. -/
theorem inputSlice_inputSlice {input part : List Symbol} {start stop first last : Nat}
    (hpart : inputSlice input start stop = some part) (hspan : first ≤ last)
    (hlast : last < part.length) :
    inputSlice input (start + first) (start + last) = inputSlice part first last := by
  have hlength := length_of_inputSlice hpart
  obtain ⟨hstart, hstop, rfl⟩ := inputSlice_eq_some_iff.mp hpart
  rw [inputSlice_eq_some_iff.mpr ⟨hspan, hlast, rfl⟩, inputSlice_eq_some_iff]
  refine ⟨by omega, by omega, ?_⟩
  rw [List.drop_take, List.drop_drop, List.take_take]
  congr 1
  omega

theorem Grammar.policy_localTo (grammar : Grammar) {input part : List Symbol}
    {start stop : Nat} (hpart : inputSlice input start stop = some part) :
    grammar.policy.LocalTo input part start := by
  have hlength := length_of_inputSlice hpart
  obtain ⟨hstart, hstop, _⟩ := inputSlice_eq_some_iff.mp hpart
  constructor
  · omega
  · intro first last hspan hlast
    have hwidth : start + last + 1 - (start + first) = last + 1 - first := by omega
    simp only [Policy.lexicalRules, hwidth, Grammar.policy,
      inputSlice_inputSlice hpart hspan hlast]
    rfl
  · intro first last split _ _
    rfl

/-! ## The same cells -/

namespace InsidePass

variable {model : Model K} {input part : List Symbol} {start : Nat} (width : Nat)
  (width_pos : 0 < width)

theorem insideBackpointers_local (hlocal : model.policy.LocalTo input part start)
    {inside inside' : (first last : Nat) → SymbolWeights S} {first last : Nat}
    (hspan : first ≤ last) (hlast : last < part.length)
    (h : ∀ s e, s ≤ e → e ≤ last → e - s < last - first →
      inside (start + s) (start + e) = inside' s e) :
    insideBackpointers model input inside (start + first) (start + last) =
      insideBackpointers model part inside' first last := by
  have hwidth : start + last - (start + first) = last - first := by omega
  unfold insideBackpointers terminalBackpointers binaryBackpointers
  rw [hlocal.lexicalRules_eq first last hspan hlast, hwidth]
  congr 1
  apply List.flatMap_congr
  intro split hsplit
  rw [List.mem_range] at hsplit
  have hleft := h first (first + split) (by omega) (by omega) (by omega)
  have hright := h (first + split + 1) last (by omega) (Nat.le_refl _) (by omega)
  rw [← Nat.add_assoc] at hleft
  rw [← Nat.add_assoc, ← Nat.add_assoc] at hright
  simp only [hlocal.binaryRules_eq first last split hspan hlast, hleft, hright]

/-- A cell of the part is a cell of the whole, with the same heaps in it. -/
theorem get_cells_local (hlocal : model.policy.LocalTo input part start) {first last : Nat}
    (hspan : first ≤ last) (hlast : last < part.length) :
    (run model width width_pos input : InsidePass S).cells.get (start + first)
        (start + last) =
      (run model width width_pos part : InsidePass S).cells.get first last := by
  have hwithin := hlocal.within
  induction hwidth : last - first using Nat.strong_induction_on
    generalizing first last with
  | _ w ih =>
      rw [get_cells_run model width width_pos input (by omega) (by omega),
        get_cells_run model width width_pos part hspan hlast]
      congr 1
      apply insideBackpointers_local hlocal hspan hlast
      intro s e hse he hlt
      exact congrArg InsideCell.weights (ih (e - s) (by omega) hse (by omega) rfl)

theorem inside_local (hlocal : model.policy.LocalTo input part start) {first last : Nat}
    (hspan : first ≤ last) (hlast : last < part.length) :
    (run model width width_pos input : InsidePass S).inside (start + first) (start + last) =
      (run model width width_pos part : InsidePass S).inside first last :=
  congrArg InsideCell.weights (get_cells_local width width_pos hlocal hspan hlast)

theorem sortedBackpointers_local (hlocal : model.policy.LocalTo input part start)
    (x : Symbol) {first last : Nat} (hspan : first ≤ last) (hlast : last < part.length) :
    (run model width width_pos input : InsidePass S).sortedBackpointers x (start + first)
        (start + last) =
      (run model width width_pos part : InsidePass S).sortedBackpointers x first last := by
  rw [sortedBackpointers, sortedBackpointers,
    get_cells_local width width_pos hlocal hspan hlast]

end InsidePass

/-! ## The same trees -/

/-- The tree over a span that lies further to the right. -/
def ParseTree.shift (offset : Nat) : ParseTree S → ParseTree S
  | leaf rule weight first last => leaf rule weight (offset + first) (offset + last)
  | node parent ruleType left right weight =>
      node parent ruleType (left.shift offset) (right.shift offset) weight

namespace ParseTree

variable (offset : Nat)

@[simp] theorem weight_shift (tree : ParseTree S) :
    (tree.shift offset).weight = tree.weight := by
  cases tree <;> rfl

theorem shift_join (rule : BinaryRule) (ruleWeight : S) (left right : ParseTree S) :
    (join rule ruleWeight left right).shift offset =
      join rule ruleWeight (left.shift offset) (right.shift offset) := by
  simp only [join, shift, weight_shift]

end ParseTree

/-- Back-pointers that are found again further to the right lead to the same tree there. -/
theorem followFirst_shift {offset size : Nat}
    {back back' : Symbol → (first last : Nat) → Option (Backpointer S)}
    (hback : ∀ x first last, first ≤ last → last < size →
      back x (offset + first) (offset + last) = back' x first last)
    (x : Symbol) {first last : Nat} (hspan : first ≤ last) (hlast : last < size) :
    followFirst back x (offset + first) (offset + last) =
      (followFirst back' x first last).map (ParseTree.shift offset) := by
  induction hwidth : last - first using Nat.strong_induction_on
    generalizing x first last with
  | _ w ih =>
      have hsame : offset + last - (offset + first) = last - first := by omega
      rw [followFirst, followFirst, hback x first last hspan hlast]
      cases back' x first last with
      | none => rfl
      | some pointer =>
          rcases pointer with ⟨split, rule | rule, weight, ruleWeight⟩
          · dsimp only
            by_cases hsplit : split < last - first
            · have hleft := @ih (first + split - first) (by omega) rule.left first
                (first + split) (by omega) (by omega) rfl
              have hright := @ih (last - (first + split + 1)) (by omega) rule.right
                (first + split + 1) last (by omega) hlast rfl
              rw [← Nat.add_assoc] at hleft
              rw [← Nat.add_assoc, ← Nat.add_assoc] at hright
              rw [dif_pos (by omega), dif_pos hsplit, hleft, hright]
              cases followFirst back' rule.left first (first + split) with
              | none => rfl
              | some left =>
                  cases followFirst back' rule.right (first + split + 1) last with
                  | none => rfl
                  | some right =>
                      exact congrArg some (ParseTree.shift_join offset ..).symm
            · rw [dif_neg (by omega), dif_neg hsplit]
              rfl
          · rfl

theorem treesThrough_shift {offset : Nat}
    {trees trees' : Symbol → (first last : Nat) → List (ParseTree S)} {first last : Nat}
    {pointer : Backpointer S}
    (hsplit : ∀ rule, pointer.rule = .binary rule → pointer.split < last - first)
    (htrees : ∀ x s e, s ≤ e → e ≤ last → e - s < last - first →
      trees x (offset + s) (offset + e) = (trees' x s e).map (ParseTree.shift offset)) :
    treesThrough trees (offset + first) (offset + last) pointer =
      (treesThrough trees' first last pointer).map
        (Prod.map (ParseTree.shift offset) id) := by
  rcases pointer with ⟨split, rule | rule, weight, ruleWeight⟩
  · have hlt : split < last - first := hsplit rule rfl
    have hleft := htrees rule.left first (first + split) (by omega) (by omega) (by omega)
    have hright := htrees rule.right (first + split + 1) last (by omega) (Nat.le_refl _)
      (by omega)
    rw [← Nat.add_assoc] at hleft
    rw [← Nat.add_assoc, ← Nat.add_assoc] at hright
    simp only [treesThrough, hleft, hright, List.flatMap_map, List.map_flatMap,
      List.map_map, Function.comp_def, Prod.map_apply, ParseTree.shift_join,
      ParseTree.weight_shift, id_eq]
  · rfl

theorem selectTrees_shift (offset : Nat) {count : Nat} (count_pos : 0 < count)
    (trees : List (ParseTree S × S)) :
    selectTrees count count_pos (trees.map (Prod.map (ParseTree.shift offset) id)) =
      (selectTrees count count_pos trees).map (ParseTree.shift offset) :=
  selectTrees_map ⟨fun _ _ => rfl, fun _ _ => rfl⟩ count count_pos trees

namespace InsidePass

variable {model : Model K} {input part : List Symbol} {start : Nat} (width : Nat)
  (width_pos : 0 < width)

theorem bestTree_local (hlocal : model.policy.LocalTo input part start) (x : Symbol)
    {first last : Nat} (hspan : first ≤ last) (hlast : last < part.length) :
    (run model width width_pos input : InsidePass S).bestTree x (start + first)
        (start + last) =
      ((run model width width_pos part : InsidePass S).bestTree x first last).map
        (ParseTree.shift start) := by
  refine followFirst_shift (fun y s e hse he => ?_) x hspan hlast
  rw [sortedBackpointers_local width width_pos hlocal y hse he]

theorem bestTrees_local (hlocal : model.policy.LocalTo input part start) {count : Nat}
    (count_pos : 0 < count) (x : Symbol) {first last : Nat} (hspan : first ≤ last)
    (hlast : last < part.length) :
    (run model width width_pos input : InsidePass S).bestTrees count count_pos x
        (start + first) (start + last) =
      ((run model width width_pos part : InsidePass S).bestTrees count count_pos x first
        last).map (ParseTree.shift start) := by
  have hwithin := hlocal.within
  induction hwidth : last - first using Nat.strong_induction_on
    generalizing x first last with
  | _ w ih =>
      rw [bestTrees_run model width width_pos input count_pos (by omega) (by omega),
        bestTrees_run model width width_pos part count_pos hspan hlast,
        sortedBackpointers_local width width_pos hlocal x hspan hlast,
        ← selectTrees_shift, List.map_flatMap]
      congr 1
      apply List.flatMap_congr
      intro pointer hpointer
      apply treesThrough_shift
      · intro rule hrule
        exact split_lt_of_mem_sortedBackpointers model width width_pos part hspan hlast
          (List.mem_of_mem_take hpointer) hrule
      · intro y s e hse he hlt
        exact ih (e - s) (by omega) y hse (by omega) rfl

end InsidePass

/-! ## Charts of the whole and of a part -/

namespace Chart

/-- What a chart finds out about the spans of a part, another one finds out about the same
spans of an input in which the part begins at `start`. -/
structure RepeatsFrom (whole alone : Chart S) (start : Nat) : Prop where
  within : start + alone.length ≤ whole.length
  inside : ∀ first last, first ≤ last → last < alone.length →
    ∃ weights, alone.inside first last = .ok weights ∧
      whole.inside (start + first) (start + last) = .ok weights
  backpointers : WeightAlgebra.selective S = true →
    ∀ x first last, first ≤ last → last < alone.length →
      ∃ pointers, alone.backpointers x first last = .ok pointers ∧
        whole.backpointers x (start + first) (start + last) = .ok pointers
  bestTree : WeightAlgebra.selective S = true →
    ∀ x first last, first ≤ last → last < alone.length →
      ∃ best, alone.bestTreeWithSpan x first last = .ok best ∧
        whole.bestTreeWithSpan x (start + first) (start + last) =
          .ok (best.map (ParseTree.shift start))
  bestTrees : WeightAlgebra.selective S = true →
    ∀ x first last, first ≤ last → last < alone.length →
      ∀ count, 0 < count → count ≤ alone.beamWidth →
        ∃ trees, alone.bestTreesWithSpan x first last count = .ok trees ∧
          whole.bestTreesWithSpan x (start + first) (start + last) count =
            .ok (trees.map (ParseTree.shift start))

theorem repeatsFrom_run {model : Model K} {input part : List Symbol} {start : Nat}
    (width : Nat) (width_pos : 0 < width)
    (hlocal : model.policy.LocalTo input part start) :
    RepeatsFrom
      (⟨input.length, width, width_pos, .insideDone (.run model width width_pos input)⟩ :
        Chart S)
      ⟨part.length, width, width_pos, .insideDone (.run model width width_pos part)⟩
      start := by
  have hwithin := hlocal.within
  have hstart : ∀ {first last : Nat}, first ≤ last → start + first ≤ start + last :=
    fun hspan => Nat.add_le_add_left hspan start
  have hwhole : ∀ {last : Nat}, last < part.length → start + last < input.length :=
    fun hlast => by omega
  constructor
  · exact hwithin
  · intro first last hspan hlast
    refine ⟨_, answer_of_le hspan hlast _, ?_⟩
    rw [← InsidePass.inside_local width width_pos hlocal hspan hlast]
    exact answer_of_le (hstart hspan) (hwhole hlast) _
  · intro hselective x first last hspan hlast
    refine ⟨_, backpointers_eq rfl hselective hspan hlast x, ?_⟩
    rw [← InsidePass.sortedBackpointers_local width width_pos hlocal x hspan hlast]
    exact backpointers_eq rfl hselective (hstart hspan) (hwhole hlast) x
  · intro hselective x first last hspan hlast
    refine ⟨_, bestTreeWithSpan_eq rfl hselective hspan hlast x, ?_⟩
    rw [← InsidePass.bestTree_local width width_pos hlocal x hspan hlast]
    exact bestTreeWithSpan_eq rfl hselective (hstart hspan) (hwhole hlast) x
  · intro hselective x first last hspan hlast count count_pos hcount
    refine ⟨_, bestTreesWithSpan_eq rfl hselective count_pos hcount hspan hlast x, ?_⟩
    rw [← InsidePass.bestTrees_local width width_pos hlocal count_pos x hspan hlast]
    exact bestTreesWithSpan_insideDone hselective count_pos hcount (hstart hspan)
      (hwhole hlast) x

/-- What the inside pass of a grammar finds out about a span is what it finds out about the
words of the span alone. -/
theorem inside_results_are_local (grammar : Grammar) (ruleWeight : Rule → K) (width : Nat)
    (width_pos : 0 < width) {input part : List Symbol} {start stop : Nat}
    (hpart : inputSlice input start stop = some part) :
    ∃ whole alone : Chart S,
      parseInside ⟨grammar.policy, ruleWeight⟩ width width_pos input = .ok whole ∧
        parseInside ⟨grammar.policy, ruleWeight⟩ width width_pos part = .ok alone ∧
          alone.length = stop - start + 1 ∧ alone.beamWidth = width ∧
            whole.RepeatsFrom alone start := by
  have hlength := length_of_inputSlice hpart
  obtain ⟨hstart, hstop, _⟩ := inputSlice_eq_some_iff.mp hpart
  have hinput : input ≠ [] := List.ne_nil_of_length_pos (by omega)
  have halone : part ≠ [] := List.ne_nil_of_length_pos (by omega)
  refine ⟨_, _, parseInside_eq _ width width_pos hinput,
    parseInside_eq _ width width_pos halone, ?_, rfl,
    repeatsFrom_run width width_pos (grammar.policy_localTo hpart)⟩
  change part.length = _
  omega

/-- Of three words the last two have the best tree that they have alone, one place further
to the right. -/
theorem inside_results_are_local_three_words :
    ∃ (grammar : Grammar) (whole alone : Chart (MaxProduct Nat))
        (tree : ParseTree (MaxProduct Nat)),
      parseInside ⟨grammar.policy, fun _ => 1⟩ 1 Nat.one_pos [⟨1⟩, ⟨2⟩, ⟨1⟩] = .ok whole ∧
        parseInside ⟨grammar.policy, fun _ => 1⟩ 1 Nat.one_pos [⟨2⟩, ⟨1⟩] = .ok alone ∧
          alone.bestTreeWithSpan ⟨0⟩ 0 1 = .ok (some tree) ∧
            whole.bestTreeWithSpan ⟨0⟩ 1 2 = .ok (some (tree.shift 1)) := by
  let grammar := ((Grammar.empty.addBinary ⟨⟨0⟩, ⟨3⟩, ⟨4⟩, none⟩).addTerminal
    ⟨⟨3⟩, [⟨2⟩], none⟩).addTerminal ⟨⟨4⟩, [⟨1⟩], none⟩
  have hpolicy : grammar.policy = Policy.scan [⟨⟨0⟩, ⟨3⟩, ⟨4⟩, none⟩]
      [⟨⟨3⟩, [⟨2⟩], none⟩, ⟨⟨4⟩, [⟨1⟩], none⟩] := by
    rw [((Grammar.Indexed.empty.addBinary _).addTerminal _ |>.addTerminal _).policy_eq_scan]
    simp [Grammar.addTerminal, Grammar.addBinary, Grammar.empty, Grammar.binaryRules,
      Grammar.terminalRules]
  obtain ⟨whole, alone, hwhole, halone, hlength, _, hrepeats⟩ :=
    inside_results_are_local (S := MaxProduct Nat) grammar (fun _ => 1) 1 Nat.one_pos
      (show inputSlice [⟨1⟩, ⟨2⟩, ⟨1⟩] 1 2 = some [⟨2⟩, ⟨1⟩] by decide)
  obtain ⟨best, hbest, hshift⟩ := hrepeats.bestTree rfl ⟨0⟩ 0 1 (by decide)
    (hlength ▸ Nat.one_lt_two)
  have hsome : best.isSome = true := by
    obtain rfl := Except.ok.inj
      ((parseInside_eq _ 1 Nat.one_pos (by decide)).symm.trans halone)
    rw [bestTreeWithSpan_insideDone rfl (by decide) (by decide), hpolicy] at hbest
    rw [← Except.ok.inj hbest]
    decide +kernel
  obtain ⟨tree, rfl⟩ := Option.isSome_iff_exists.mp hsome
  exact ⟨grammar, whole, alone, tree, hwhole, halone, hbest, hshift⟩

end Chart

end WeightedParsing
