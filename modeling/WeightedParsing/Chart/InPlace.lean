import WeightedParsing.Chart.Checked

/-!
# Charts that are filled in place

A flagged chart holds the results of both passes from the start, blank until they are
overwritten, and two flags tell which passes have run.  What is asked of it goes through
guards first; a guard that refuses a request stops it there, with the chart in the state
that it is in by then.
-/

namespace WeightedParsing

variable {K S : Type} [WeightAlgebra K S]

structure FlaggedChart (S : Type) where
  length : Nat
  beamWidth : Nat
  beamWidth_pos : 0 < beamWidth
  inside : InsidePass S
  outside : OutsidePass S
  insideCalculated : Bool
  outsideCalculated : Bool

namespace FlaggedChart

def blank (length beamWidth : Nat) (beamWidth_pos : 0 < beamWidth) : FlaggedChart S where
  length
  beamWidth
  beamWidth_pos
  inside := ⟨[], .empty length .empty⟩
  outside := ⟨.empty, 0, .empty length .empty, .empty length .empty, .empty⟩
  insideCalculated := false
  outsideCalculated := false

/-- The input of the inside pass. -/
def terminals (chart : FlaggedChart S) : List Symbol := chart.inside.input

def withTerminals (chart : FlaggedChart S) (input : List Symbol) : FlaggedChart S :=
  { chart with inside := { chart.inside with input } }

def withInside (chart : FlaggedChart S) (pass : InsidePass S) : FlaggedChart S :=
  { chart with inside := pass, insideCalculated := true }

def withOutside (chart : FlaggedChart S) (pass : OutsidePass S) : FlaggedChart S :=
  { chart with outside := pass, outsideCalculated := true }

end FlaggedChart

namespace Chart

def flagged (chart : Chart S) : FlaggedChart S :=
  let blank := FlaggedChart.blank chart.length chart.beamWidth chart.beamWidth_pos
  match chart.progress with
  | .blank => blank
  | .insideDone inside => blank.withInside inside
  | .outsideDone inside outside => (blank.withInside inside).withOutside outside

end Chart

/-- A method on a flagged chart.  An error that it gives does not take back what it has
written. -/
abbrev InPlace (S α : Type) : Type := ExceptT ChartError (StateT (FlaggedChart S) Checked) α

namespace InPlace

variable {α : Type}

def perform (method : InPlace S α) (chart : FlaggedChart S) :
    Checked (Except ChartError α × FlaggedChart S) :=
  method.run.run chart

/-! ## Guards -/

def insidePass : InPlace S (InsidePass S) := do
  let chart ← get
  if chart.insideCalculated then return chart.inside
  else throw .insideNotCalculated

def outsidePass : InPlace S (OutsidePass S) := do
  let chart ← get
  if chart.outsideCalculated then return chart.outside
  else throw .outsideNotCalculated

def checkSpan (first last : Nat) : InPlace S Unit := do
  let chart ← get
  if first ≤ last ∧ last < chart.length then return ()
  else throw (.spanOutOfRange first last chart.length)

def requireSelective : InPlace S Unit :=
  if WeightAlgebra.selective S then return ()
  else throw .notSelective

def requireCount (count : Nat) : InPlace S (PLift (0 < count)) := do
  let chart ← get
  if h : 0 < count ∧ count ≤ chart.beamWidth then return ⟨h.1⟩
  else throw (.beamTooNarrow count chart.beamWidth)

/-! ## Filling -/

/-- Takes the input over, before the cells are filled. -/
def setTerminals (input : List Symbol) : InPlace S Unit := do
  let chart ← get
  if chart.insideCalculated then throw .insideAlreadyCalculated
  else if input.isEmpty then throw .emptyInput
  else if input.length ≠ chart.length then
    throw (.lengthMismatch chart.length input.length)
  else set (chart.withTerminals input)

def fillInside (model : Model K) (input : List Symbol) : InPlace S Unit := do
  setTerminals input
  let chart ← get
  let pass ← Checked.insidePass model chart.beamWidth chart.beamWidth_pos input
  set (chart.withInside pass)

def partition : InPlace S S := do
  let pass ← outsidePass
  return pass.partition

/-- Looks the partition function up in the end, when it is there. -/
def fillOutside [Scalar K] (model : Model K) (prior : RootPrior K) : InPlace S Unit := do
  let chart ← get
  if !chart.insideCalculated then throw .insideNotCalculated
  else if chart.outsideCalculated then throw .outsideAlreadyCalculated
  else
    let pass ← Checked.outsidePass model prior chart.inside
    set (chart.withOutside pass)
    let _ ← partition

/-! ## Reading -/

def inside (first last : Nat) : InPlace S (SymbolWeights S) := do
  let pass ← insidePass
  checkSpan first last
  Checked.weightsOf pass.cells.read first last

def outside (first last : Nat) : InPlace S (SymbolWeights S) := do
  let pass ← outsidePass
  checkSpan first last
  pass.outside.read first last

def marginal (first last : Nat) : InPlace S (SymbolWeights S) := do
  let pass ← outsidePass
  checkSpan first last
  pass.marginal.read first last

def rootWeights : InPlace S (SymbolWeights S) := do
  let pass ← outsidePass
  return pass.root

def expectations : InPlace S (OrderedTable Rule S) := do
  let pass ← outsidePass
  return pass.expectations

def binaryExpectations : InPlace S (List (Rule × S)) := do
  let table ← expectations
  return binaryEntries table.entries

def terminalExpectations : InPlace S (List (Rule × S)) := do
  let table ← expectations
  return terminalEntries table.entries

def normalizedExpectations [Scalar K] : InPlace S (ExpectedCounts K) := do
  let pass ← outsidePass
  return pass.normalizedCounts

def backpointers (symbol : Symbol) (first last : Nat) : InPlace S (List (Backpointer S)) := do
  requireSelective
  let pass ← insidePass
  checkSpan first last
  Checked.sortedBackpointers pass symbol first last

def bestTreeWithSpan (root : Symbol) (first last : Nat) :
    InPlace S (Option (ParseTree S)) := do
  requireSelective
  let pass ← insidePass
  checkSpan first last
  Checked.bestTree pass root first last

def bestTree (root : Symbol) : InPlace S (Option (ParseTree S)) := do
  let _ ← insidePass
  let chart ← get
  let last ← Checked.sub chart.length 1
  bestTreeWithSpan root 0 last

def bestTreesWithSpan (root : Symbol) (first last count : Nat) :
    InPlace S (List (ParseTree S)) := do
  requireSelective
  let pass ← insidePass
  let ⟨count_pos⟩ ← requireCount count
  checkSpan first last
  Checked.bestTrees (Checked.sortedBackpointers pass) count count_pos root first last

def bestTrees (root : Symbol) (count : Nat) : InPlace S (List (ParseTree S)) := do
  let _ ← insidePass
  let chart ← get
  let last ← Checked.sub chart.length 1
  bestTreesWithSpan root 0 last count

def bestTreesForPrior (prior : SymbolWeights S) (count : Nat) :
    InPlace S (List (ParseTree S)) := do
  requireSelective
  let pass ← insidePass
  let ⟨count_pos⟩ ← requireCount count
  Checked.bestTreesForPrior pass count count_pos prior

end InPlace

/-- Answers what is read off a chart by a method.  Where every entry is fit to be sorted the
method gives the answer that is known without it, and is not performed. -/
def Chart.ask {α : Type} (chart : Chart S) (plain : Except ChartError α)
    (method : InPlace S α) : Checked (Except ChartError α) :=
  if chart.flagged.inside.Sortable then .ok plain
  else Prod.fst <$> method.perform chart.flagged

end WeightedParsing
