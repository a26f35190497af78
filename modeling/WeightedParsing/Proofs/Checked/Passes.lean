import WeightedParsing.Chart.Checked
import WeightedParsing.Proofs.Chart.Inside
import WeightedParsing.Proofs.Checked.SpanTable

/-!
# The passes meet no fault

The checked passes over a nonempty input give what the unchecked ones give.  A cell of the
inside pass looks into the two parts of its span, and a cell of the outside pass into wider
spans of the input and the parts of these.  Nothing is asked of the weights or of the policy.
-/

namespace WeightedParsing.Checked

variable {K S : Type} [WeightAlgebra K S]

/-! ## The inside pass -/

section Inside

variable {size first last : Nat}

theorem binaryBackpointers_eq (model : Model K)
    {read : (first last : Nat) → Checked (SymbolWeights S)}
    {inside : (first last : Nat) → SymbolWeights S} (hread : Reads size read inside)
    (hspan : first ≤ last) (hlast : last < size) :
    binaryBackpointers model read first last =
      .ok (WeightedParsing.binaryBackpointers model inside first last) := by
  rw [binaryBackpointers, sub_eq hspan, ok_bind]
  refine gather_eq fun split hsplit => ?_
  rw [List.mem_range] at hsplit
  rw [hread first (first + split) (by omega) (by omega), ok_bind,
    hread (first + split + 1) last (by omega) hlast, ok_bind]
  rfl

theorem reads_weightsOf {read : (first last : Nat) → Checked (InsideCell S)}
    {look : (first last : Nat) → InsideCell S} (hread : Reads size read look) :
    Reads size (weightsOf read) fun first last => (look first last).weights := by
  intro first last hspan hlast
  rw [weightsOf, hread first last hspan hlast]
  rfl

theorem insidePass_eq (model : Model K) (width : Nat) (width_pos : 0 < width)
    (input : List Symbol) :
    (insidePass model width width_pos input : Checked (InsidePass S)) =
      .ok (.run model width width_pos input) := by
  have hcells : (insideCells model width width_pos input : Checked (SpanTable (InsideCell S))) =
      .ok (WeightedParsing.insideCells model width width_pos input) := by
    refine sweep_eq (fun read look hread first last hspan hlast => ?_)
      fun _ hwidth => List.mem_range.mp hwidth
    rw [binaryBackpointers_eq model (reads_weightsOf hread) hspan hlast]
    rfl
  rw [insidePass, hcells]
  rfl

end Inside

/-! ## The outside pass -/

theorem addUses_eq {size : Nat} {uses : (first last : Nat) → Checked (List (Rule × S))}
    {plain : (first last : Nat) → List (Rule × S)} (huses : Reads size uses plain)
    {spans : List (Nat × Nat)} (hspans : ∀ span ∈ spans, span.1 ≤ span.2 ∧ span.2 < size)
    (table : OrderedTable Rule S) :
    addUses uses spans table =
      .ok (spans.foldl
        (fun table span => (plain span.1 span.2).foldl addExpectation table) table) := by
  refine foldlM_eq (fun span hspan table => ?_) table
  rw [huses span.1 span.2 (hspans span hspan).1 (hspans span hspan).2]
  rfl

section Outside

variable {size first last : Nat} (model : Model K)
  {read : (first last : Nat) → Checked (SymbolWeights S)}
  {inside : (first last : Nat) → SymbolWeights S}
  {readOutside : (first last : Nat) → Checked (SymbolWeights S)}
  {outside : (first last : Nat) → SymbolWeights S}
  (hread : Reads size read inside) (hreadOutside : Reads size readOutside outside)

include hread hreadOutside

theorem ruleUses_eq {split : Nat} (hsplit : first + split < last) (hlast : last < size) :
    ruleUses model read readOutside first last split =
      .ok (WeightedParsing.ruleUses model inside outside first last split) := by
  rw [ruleUses, hreadOutside first last (by omega) hlast, ok_bind,
    hread first (first + split) (by omega) (by omega), ok_bind,
    hread (first + split + 1) last (by omega) hlast, ok_bind]
  rfl

theorem sharesFromWidth_eq {width : Nat} (hspan : first ≤ last) (hlast : last < size)
    (hwidth : last - first < width) :
    sharesFromWidth model read readOutside size first last width =
      .ok (WeightedParsing.sharesFromWidth model inside outside size first last width) := by
  have hending : rightShares model read readOutside first last width =
      .ok (if width ≤ last then
        (WeightedParsing.ruleUses model inside outside (last - width) last
          (first - 1 - (last - width))).map RuleUse.rightShare
      else []) := by
    rw [rightShares]
    split
    · rename_i hle
      rw [sub_eq hle, ok_bind, sub_eq (by omega), ok_bind, sub_eq (by omega), ok_bind,
        ruleUses_eq model hread hreadOutside (by omega) hlast]
      rfl
    · rfl
  have hstarting : leftShares model read readOutside size first last width =
      .ok (if first + width < size then
        (WeightedParsing.ruleUses model inside outside first (first + width)
          (last - first)).map RuleUse.leftShare
      else []) := by
    rw [leftShares]
    split
    · rename_i hlt
      rw [sub_eq hspan, ok_bind, ruleUses_eq model hread hreadOutside (by omega) hlt]
      rfl
    · rfl
  rw [sharesFromWidth, hending, ok_bind, hstarting]
  rfl

theorem outsideShares_eq (hspan : first ≤ last) (hlast : last < size) :
    outsideShares model read readOutside size first last =
      .ok (WeightedParsing.outsideShares model inside outside size first last) := by
  rw [outsideShares, sub_eq (by omega), ok_bind, sub_eq hspan, ok_bind, sub_eq (by omega),
    ok_bind]
  refine gather_eq fun i hi => ?_
  rw [List.mem_range] at hi
  rw [sub_eq (by omega), ok_bind]
  exact sharesFromWidth_eq model hread hreadOutside hspan hlast (by omega)

theorem reads_binaryUses :
    Reads size (binaryUses model read readOutside)
      (WeightedParsing.binaryUses model inside outside) := by
  intro first last hspan hlast
  rw [binaryUses, sub_eq hspan, ok_bind]
  refine gather_eq fun split hsplit => ?_
  rw [List.mem_range] at hsplit
  rw [ruleUses_eq model hread hreadOutside (by omega) hlast]
  rfl

omit hread in
theorem reads_terminalUses (input : List Symbol) :
    Reads size (terminalUses model input readOutside)
      (WeightedParsing.terminalUses model input outside) := by
  intro first last hspan hlast
  rw [terminalUses, hreadOutside first last hspan hlast]
  rfl

theorem expectedUses_eq {input : List Symbol} (hsize : input.length = size) :
    expectedUses model input read readOutside =
      .ok (WeightedParsing.expectedUses model input inside outside) := by
  have hnarrowing : ∀ span ∈ spansNarrowing input.length, span.1 ≤ span.2 ∧ span.2 < size := by
    intro span hspan
    rw [(spansNarrowing_perm _).mem_iff, mem_spansWidening, hsize] at hspan
    exact hspan
  have hwidening : ∀ span ∈ spansWidening input.length, span.1 ≤ span.2 ∧ span.2 < size := by
    intro span hspan
    rw [mem_spansWidening, hsize] at hspan
    exact hspan
  rw [expectedUses, addUses_eq (reads_binaryUses model hread hreadOutside) hnarrowing, ok_bind,
    addUses_eq (reads_terminalUses model hreadOutside input) hwidening]
  rfl

omit hreadOutside in
theorem outsideCells_eq (root : SymbolWeights S) :
    outsideCells model root read size =
      .ok (WeightedParsing.outsideCells model root inside size) := by
  refine sweep_eq (fun readOutside outside hreadOutside first last hspan hlast => ?_) ?_
  · rw [sub_eq hspan, ok_bind]
    split
    · rfl
    · rw [outsideShares_eq model hread hreadOutside hspan hlast]
      rfl
  · intro width hwidth
    exact List.mem_range.mp (List.mem_reverse.mp hwidth)

end Outside

theorem marginalCells_eq {cells : SpanTable (InsideCell S)}
    {outside : SpanTable (SymbolWeights S)} (hsize : outside.size = cells.size) :
    marginalCells cells outside =
      .ok (cells.mapSpans .empty fun first last cell =>
        marginalWeights cell.weights (outside.get first last)) := by
  refine sweep_eq (fun _ _ _ first last hspan hlast => ?_) fun _ hwidth =>
    List.mem_range.mp hwidth
  rw [cells.reads first last hspan hlast, ok_bind,
    outside.reads first last hspan (by omega)]
  rfl

theorem size_outsideCells (model : Model K) (root : SymbolWeights S)
    (inside : (first last : Nat) → SymbolWeights S) (length : Nat) :
    (WeightedParsing.outsideCells model root inside length).size = length :=
  SpanTable.size_sweep _

/-- Without an input there would be no widest span to begin with. -/
theorem outsidePass_eq [Scalar K] (model : Model K) (prior : RootPrior K)
    {pass : InsidePass S} (hsize : pass.cells.size = pass.input.length)
    (hinput : 0 < pass.input.length) :
    outsidePass model prior pass = .ok (.run model prior pass) := by
  have hread : Reads pass.input.length (weightsOf pass.cells.read) pass.inside :=
    reads_weightsOf (hsize ▸ pass.cells.reads)
  rw [outsidePass, sub_eq hinput, ok_bind, hread 0 _ (Nat.zero_le _) (by omega), ok_bind]
  dsimp only
  rw [outsideCells_eq model hread, ok_bind]
  have houtside := size_outsideCells model
    (prior.restrictTo (pass.inside 0 (pass.input.length - 1)).symbols) pass.inside
    pass.input.length
  rw [marginalCells_eq (houtside.trans hsize.symm), ok_bind,
    expectedUses_eq model hread (houtside ▸ SpanTable.reads _) rfl]
  rfl

end WeightedParsing.Checked
