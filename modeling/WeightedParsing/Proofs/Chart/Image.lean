import WeightedParsing.Chart.Basic
import WeightedParsing.Proofs.Chart.Inside
import WeightedParsing.Proofs.Weight.Homomorphism

/-!
# Images of the passes

Both passes commute with a homomorphism of weights: every list that they sum up is the
image of the other one, item by item, so that no rule is skipped in one run and followed
in the other.  Each cell is the image of a cell when the cells it looks into are.
-/

namespace WeightedParsing

/-- The image of a back-pointer; it has the same rule and the same split. -/
def Backpointer.map {S T : Type} (h : S → T) (back : Backpointer S) : Backpointer T :=
  ⟨back.split, back.rule, h back.derivationWeight, h back.ruleWeight⟩

def RuleUse.map {S T : Type} (h : S → T) (use : RuleUse S) : RuleUse T :=
  ⟨use.rule, h use.ruleWeight, h use.left, h use.right, h use.parent⟩

section Images

variable {K S T : Type} [Scalar K] [WeightAlgebra K S] [WeightAlgebra K T]
  {h : S → T} {model : Model K}

theorem RuleUse.leftShare_map (hom : WeightHom h) (use : RuleUse S) :
    (use.map h).leftShare = (use.leftShare.1, h use.leftShare.2) := by
  simp only [leftShare, map, hom.map_mul]

theorem RuleUse.rightShare_map (hom : WeightHom h) (use : RuleUse S) :
    (use.map h).rightShare = (use.rightShare.1, h use.rightShare.2) := by
  simp only [rightShare, map, hom.map_mul]

theorem RuleUse.expectation_map (hom : WeightHom h) (use : RuleUse S) :
    (use.map h).expectation = (use.expectation.1, h use.expectation.2) := by
  simp only [expectation, map, hom.map_mul]

theorem partitionFunction_map (hom : WeightHom h) (root inside : SymbolWeights S) :
    partitionFunction (root.map h) (inside.map h) = h (partitionFunction root inside) := by
  unfold partitionFunction
  rw [SymbolWeights.entries_map, ← hom.map_zero, List.foldl_map]
  apply List.foldl_hom h
  intro sum entry
  rw [SymbolWeights.get_map hom, ← hom.map_mul, ← hom.map_add]

variable [ExactZero K S] [ExactZero K T]

/-! ## The inside pass -/

theorem terminalBackpointers_map (hom : WeightHom h) (hmodel : model.Nonneg)
    (input : List Symbol) (first last : Nat) :
    terminalBackpointers model input first last =
      (terminalBackpointers model input first last).map (Backpointer.map h) := by
  unfold terminalBackpointers
  rw [List.map_filterMap]
  congr 1
  funext rule
  simp only [hom.map_weigh hmodel, hom.isZero_map]
  split <;> rfl

theorem binaryBackpointer?_map (hom : WeightHom h) (hmodel : model.Nonneg)
    (left right : SymbolWeights S) (split : Nat) (rule : BinaryRule) :
    binaryBackpointer? model (left.map h) (right.map h) split rule =
      (binaryBackpointer? model left right split rule).map (Backpointer.map h) := by
  unfold binaryBackpointer?
  simp only [SymbolWeights.get_map hom, hom.map_weigh hmodel, ← hom.map_mul,
    hom.isZero_map]
  split
  · rfl
  · split
    · rfl
    · split <;> rfl

theorem insideBackpointers_map (hom : WeightHom h) (hmodel : model.Nonneg)
    (input : List Symbol) (inside : (first last : Nat) → SymbolWeights S)
    (first last : Nat) :
    insideBackpointers model input (fun s e => (inside s e).map h) first last =
      (insideBackpointers model input inside first last).map (Backpointer.map h) := by
  unfold insideBackpointers binaryBackpointers
  rw [List.map_append, List.map_flatMap, ← terminalBackpointers_map hom hmodel]
  simp only [List.map_filterMap, binaryBackpointer?_map hom hmodel]

theorem InsidePass.inside_run_map (hom : WeightHom h) (hmodel : model.Nonneg)
    (width : Nat) (width_pos : 0 < width) (input : List Symbol) (first last : Nat) :
    (run model width width_pos input : InsidePass T).inside first last =
      ((run model width width_pos input : InsidePass S).inside first last).map h := by
  change ((insideCells model width width_pos input).get first last).weights =
    ((insideCells model width width_pos input).get first last).weights.map h
  unfold insideCells
  refine SpanTable.get_sweep_related
    (R := fun (cell : InsideCell S) (cell' : InsideCell T) =>
      cell'.weights = cell.weights.map h) ?_ ?_ (List.range input.length) first last
  · rfl
  intro look look' hlook s e
  have hinside : (fun s e => (look' s e).weights) =
      fun s e => (look s e).weights.map h :=
    funext fun s => funext fun e => hlook s e
  rw [InsideCell.weights_ofBackpointers, InsideCell.weights_ofBackpointers, hinside,
    insideBackpointers_map hom hmodel, ← SymbolWeights.ofList_map hom, List.map_map,
    List.map_map]
  rfl

/-! ## The outside pass -/

theorem ruleUses_map (hom : WeightHom h) (hmodel : model.Nonneg)
    (inside outside : (first last : Nat) → SymbolWeights S) (first last split : Nat) :
    ruleUses model (fun s e => (inside s e).map h) (fun s e => (outside s e).map h) first
        last split =
      (ruleUses model inside outside first last split).map (RuleUse.map h) := by
  unfold ruleUses
  simp only [List.map_filterMap, SymbolWeights.get_map hom, hom.map_weigh hmodel,
    hom.isZero_map]
  congr 1
  funext rule
  split
  · rfl
  · split <;> rfl

theorem outsideShares_map (hom : WeightHom h) (hmodel : model.Nonneg)
    (inside outside : (first last : Nat) → SymbolWeights S) (length first last : Nat) :
    outsideShares model (fun s e => (inside s e).map h) (fun s e => (outside s e).map h)
        length first last =
      (outsideShares model inside outside length first last).map fun share =>
        (share.1, h share.2) := by
  unfold outsideShares
  rw [List.map_flatMap]
  congr 1
  funext i
  unfold sharesFromWidth
  rw [List.map_append]
  congr 1
  · split
    · simp only [ruleUses_map hom hmodel, List.map_map, Function.comp_def,
        RuleUse.rightShare_map hom]
    · rfl
  · split
    · simp only [ruleUses_map hom hmodel, List.map_map, Function.comp_def,
        RuleUse.leftShare_map hom]
    · rfl

theorem outsideCells_map (hom : WeightHom h) (hmodel : model.Nonneg)
    (root : SymbolWeights S) (inside : (first last : Nat) → SymbolWeights S)
    (length first last : Nat) :
    (outsideCells model (root.map h) (fun s e => (inside s e).map h) length).get first
        last =
      ((outsideCells model root inside length).get first last).map h := by
  unfold outsideCells
  refine SpanTable.get_sweep_related
    (R := fun (cell : SymbolWeights S) (cell' : SymbolWeights T) => cell' = cell.map h) ?_
    ?_ (List.range length).reverse first last
  · rfl
  intro look look' hlook s e
  obtain rfl : look' = fun s e => (look s e).map h :=
    funext fun s => funext fun e => hlook s e
  split
  · rfl
  · rw [outsideShares_map hom hmodel, SymbolWeights.ofList_map hom]

theorem marginalWeights_map (hom : WeightHom h) (inside outside : SymbolWeights S) :
    marginalWeights (inside.map h) (outside.map h) =
      (marginalWeights inside outside).map h := by
  unfold marginalWeights
  rw [← SymbolWeights.ofList_map hom, SymbolWeights.entries_map, List.map_map,
    List.map_map]
  simp only [Function.comp_def, SymbolWeights.get_map hom, hom.map_mul]

/-! ## Expectations -/

theorem addExpectation_map (hom : WeightHom h) (table : OrderedTable Rule S)
    (use : Rule × S) :
    addExpectation (table.mapValues h) (use.1, h use.2) =
      (addExpectation table use).mapValues h := by
  unfold addExpectation
  rw [hom.isZero_map]
  split
  · rfl
  · apply OrderedTable.update_mapValues
    intro old
    rw [hom.map_getD, hom.map_add]

/-- A sweep over spans commutes with the map if what it adds for a span does. -/
theorem foldl_addExpectation_map (hom : WeightHom h) {uses : Nat × Nat → List (Rule × S)}
    {uses' : Nat × Nat → List (Rule × T)}
    (huses : ∀ span, uses' span = (uses span).map fun use => (use.1, h use.2))
    (spans : List (Nat × Nat)) (table : OrderedTable Rule S) :
    spans.foldl (fun table span => (uses' span).foldl addExpectation table)
        (table.mapValues h) =
      (spans.foldl (fun table span => (uses span).foldl addExpectation table)
        table).mapValues h := by
  apply List.foldl_hom (OrderedTable.mapValues h)
  intro table span
  rw [huses, List.foldl_map]
  apply List.foldl_hom (OrderedTable.mapValues h)
  intro table use
  exact addExpectation_map hom table use

theorem expectedUses_map (hom : WeightHom h) (hmodel : model.Nonneg)
    (input : List Symbol) (inside outside : (first last : Nat) → SymbolWeights S) :
    expectedUses model input (fun s e => (inside s e).map h)
        (fun s e => (outside s e).map h) =
      (expectedUses model input inside outside).mapValues h := by
  unfold expectedUses
  rw [← foldl_addExpectation_map hom, ← foldl_addExpectation_map hom]
  · rfl
  · intro span
    unfold binaryUses
    rw [List.map_flatMap]
    simp only [ruleUses_map hom hmodel, List.map_map, Function.comp_def,
      RuleUse.expectation_map hom]
  · intro span
    unfold terminalUses
    simp only [List.map_filterMap, SymbolWeights.get_map hom, hom.map_weigh hmodel,
      hom.isZero_map, ← hom.map_mul]
    congr 1
    funext rule
    split <;> rfl

/-! ## Both passes -/

/-- What an outside pass left behind is the image of what another one did. -/
structure OutsidePass.IsImage (h : S → T) (pass : OutsidePass S) (image : OutsidePass T) :
    Prop where
  root : image.root = pass.root.map h
  partition : image.partition = h pass.partition
  outside : ∀ first last,
    image.outside.get first last = (pass.outside.get first last).map h
  marginal : ∀ first last,
    image.marginal.get first last = (pass.marginal.get first last).map h
  expectations : image.expectations = pass.expectations.mapValues h

theorem OutsidePass.isImage_run (hom : WeightHom h) (hmodel : model.Nonneg)
    {prior : RootPrior K} (hprior : prior.Nonneg) {pass : InsidePass S}
    {image : InsidePass T} (hinput : image.input = pass.input)
    (hsize : image.cells.size = pass.cells.size)
    (hinside : ∀ first last, image.inside first last = (pass.inside first last).map h) :
    IsImage h (run model prior pass) (run model prior image) := by
  have hinside' : image.inside = fun s e => (pass.inside s e).map h :=
    funext fun s => funext fun e => hinside s e
  have hroot : (run model prior image).root = (run model prior pass).root.map h := by
    change prior.restrictTo (image.inside 0 (image.input.length - 1)).symbols =
      (prior.restrictTo (pass.inside 0 (pass.input.length - 1)).symbols).map h
    rw [hinput, hinside, SymbolWeights.symbols_map, SymbolWeights.restrictTo_map hom hprior]
  have houtside : ∀ first last, (run model prior image).outside.get first last =
      ((run model prior pass).outside.get first last).map h := by
    intro first last
    change (outsideCells model (run model prior image).root image.inside
      image.input.length).get first last = _
    rw [hroot, hinside', hinput, outsideCells_map hom hmodel]
    rfl
  constructor
  · exact hroot
  · change partitionFunction (run model prior image).root
      (image.inside 0 (image.input.length - 1)) = _
    rw [hroot, hinside, hinput, partitionFunction_map hom]
    rfl
  · exact houtside
  · intro first last
    change (image.cells.mapSpans SymbolWeights.empty fun s e cell =>
        marginalWeights cell.weights ((run model prior image).outside.get s e)).get first
          last =
      ((pass.cells.mapSpans SymbolWeights.empty fun s e cell =>
        marginalWeights cell.weights ((run model prior pass).outside.get s e)).get first
          last).map h
    refine SpanTable.get_mapSpans_related
      (R := fun (cell : SymbolWeights S) (cell' : SymbolWeights T) => cell' = cell.map h)
      hsize.symm ?_ ?_ first last
    · rfl
    intro s e
    have hcell := hinside s e
    unfold InsidePass.inside at hcell
    rw [hcell, houtside, marginalWeights_map hom]
  · change expectedUses model image.input image.inside
      (run model prior image).outside.get = _
    have houtside' : (run model prior image).outside.get =
        fun s e => ((run model prior pass).outside.get s e).map h :=
      funext fun s => funext fun e => houtside s e
    rw [houtside', hinside', hinput, expectedUses_map hom hmodel]
    rfl

end Images

end WeightedParsing
