import WeightedParsing.Chart.Outside

/-!
# Charts

A chart is made for inputs of one length.  It is filled by one inside pass and
then by at most one outside pass; which passes have run is part of its type.  A
reader checks that the pass it depends on has run, and then that its span lies
within the chart.
-/

namespace WeightedParsing

/-- Which passes have run, with what they left behind. -/
inductive Progress (S : Type) where
  | blank
  | insideDone (inside : InsidePass S)
  | outsideDone (inside : InsidePass S) (outside : OutsidePass S)

/-- The table of one input of `length` terminals. -/
structure Chart (S : Type) where
  length : Nat
  /-- The number of back-pointers kept for each entry. -/
  beamWidth : Nat
  beamWidth_pos : 0 < beamWidth
  progress : Progress S

/-- Refuses a span that does not lie within an input. -/
def checkSpan (length first last : Nat) : Except ChartError Unit :=
  if first ≤ last ∧ last < length then .ok ()
  else .error (.spanOutOfRange first last length)

namespace Chart

variable {K S : Type}

def blank (length beamWidth : Nat) (beamWidth_pos : 0 < beamWidth) : Chart S :=
  ⟨length, beamWidth, beamWidth_pos, .blank⟩

def withBeamWidth (length beamWidth : Nat) : Except UsageError (Chart S) :=
  if h : 0 < beamWidth then .ok (blank length beamWidth h)
  else .error .zeroBeamWidth

def insidePass (chart : Chart S) : Except ChartError (InsidePass S) :=
  match chart.progress with
  | .blank => .error .insideNotCalculated
  | .insideDone inside => .ok inside
  | .outsideDone inside _ => .ok inside

def outsidePass (chart : Chart S) : Except ChartError (OutsidePass S) :=
  match chart.progress with
  | .blank => .error .outsideNotCalculated
  | .insideDone _ => .error .outsideNotCalculated
  | .outsideDone _ outside => .ok outside

def insideCalculated (chart : Chart S) : Bool := chart.insidePass.isOk

def outsideCalculated (chart : Chart S) : Bool := chart.outsidePass.isOk

/-- The input of the inside pass; empty before it. -/
def terminals (chart : Chart S) : List Symbol :=
  match chart.insidePass with
  | .ok pass => pass.input
  | .error _ => []

variable [WeightAlgebra K S]

def fillInside (chart : Chart S) (model : Model K) (input : List Symbol) :
    Except ChartError (Chart S) :=
  match chart.progress with
  | .blank =>
      if input.isEmpty then .error .emptyInput
      else if input.length ≠ chart.length then
        .error (.lengthMismatch chart.length input.length)
      else
        .ok { chart with
          progress :=
            .insideDone (.run model chart.beamWidth chart.beamWidth_pos input) }
  | _ => .error .insideAlreadyCalculated

def fillOutside [Scalar K] (chart : Chart S) (model : Model K)
    (prior : RootPrior K) : Except ChartError (Chart S) :=
  match chart.progress with
  | .blank => .error .insideNotCalculated
  | .insideDone inside =>
      .ok { chart with
        progress := .outsideDone inside (.run model prior inside) }
  | .outsideDone _ _ => .error .outsideAlreadyCalculated

def parseInside (model : Model K) (beamWidth : Nat) (beamWidth_pos : 0 < beamWidth)
    (input : List Symbol) : Except ChartError (Chart S) :=
  (blank input.length beamWidth beamWidth_pos).fillInside model input

def parseMarginal [Scalar K] (model : Model K) (beamWidth : Nat)
    (beamWidth_pos : 0 < beamWidth) (prior : RootPrior K) (input : List Symbol) :
    Except ChartError (Chart S) := do
  let chart ← parseInside model beamWidth beamWidth_pos input
  chart.fillOutside model prior

def inside (chart : Chart S) (first last : Nat) :
    Except ChartError (SymbolWeights S) := do
  let pass ← chart.insidePass
  checkSpan chart.length first last
  return pass.inside first last

def outside (chart : Chart S) (first last : Nat) :
    Except ChartError (SymbolWeights S) := do
  let pass ← chart.outsidePass
  checkSpan chart.length first last
  return pass.outside.get first last

/-- The (not normalized) posterior weights of the symbols over a span. -/
def marginal (chart : Chart S) (first last : Nat) :
    Except ChartError (SymbolWeights S) := do
  let pass ← chart.outsidePass
  checkSpan chart.length first last
  return pass.marginal.get first last

/-- The summed weight of all complete derivations; zero without a parse. -/
def partition (chart : Chart S) : Except ChartError S := do
  let pass ← chart.outsidePass
  return pass.partition

def rootWeights (chart : Chart S) : Except ChartError (SymbolWeights S) := do
  let pass ← chart.outsidePass
  return pass.root

def expectations (chart : Chart S) : Except ChartError (OrderedTable Rule S) := do
  let pass ← chart.outsidePass
  return pass.expectations

def binaryExpectations (chart : Chart S) :
    Except ChartError (List (Rule × S)) := do
  let table ← chart.expectations
  return binaryEntries table.entries

def terminalExpectations (chart : Chart S) :
    Except ChartError (List (Rule × S)) := do
  let table ← chart.expectations
  return terminalEntries table.entries

def normalizedExpectations [Scalar K] (chart : Chart S) :
    Except ChartError (ExpectedCounts K) := do
  let pass ← chart.outsidePass
  return pass.normalizedCounts

end Chart

end WeightedParsing
