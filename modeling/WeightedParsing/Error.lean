/-!
# What can go wrong

`ChartError` says why a chart refuses a request: a pass has not run, a span or
a number of trees is out of range, the input does not fit.  That a sentence has
no parse is no error; its partition function is zero.  `UsageError` says which
condition on an argument does not hold.
-/

namespace WeightedParsing

/-- A request that a chart or a parser refuses. -/
inductive ChartError where
  | emptyInput
  | insideNotCalculated
  | insideAlreadyCalculated
  | outsideNotCalculated
  | outsideAlreadyCalculated
  | spanOutOfRange (first last length : Nat)
  | lengthMismatch (chart input : Nat)
  | notSelective
  | selective
  | beamTooNarrow (requested width : Nat)
deriving DecidableEq, Repr

def ChartError.message : ChartError → String
  | emptyInput => "cannot parse an empty terminal sequence"
  | insideNotCalculated => "inside probabilities have not been calculated"
  | insideAlreadyCalculated =>
      "inside probabilities were already calculated for this chart"
  | outsideNotCalculated => "outside probabilities have not been calculated"
  | outsideAlreadyCalculated =>
      "outside probabilities were already calculated for this chart"
  | spanOutOfRange first last length =>
      "span " ++ toString first ++ "..=" ++ toString last ++
        " is outside a chart over " ++ toString length ++ " terminals"
  | lengthMismatch chart input =>
      "chart holds " ++ toString chart ++ " terminals but the input has " ++
        toString input
  | notSelective => "tree extraction needs a max-product chart"
  | selective =>
      "expected rule counts need a sum-product semiring, not a max-product one"
  | beamTooNarrow requested width =>
      "requested " ++ toString requested ++ " trees but the chart keeps only " ++
        toString width ++ " backpointers per entry"

/-- An argument that breaks the condition under which a function may be used. -/
inductive UsageError where
  | emptyTerminalRule
  | negativeRuleWeight
  | zeroTreesPerEntry
  | zeroBeamSize
  | zeroBeamWidth
  | zeroCapacity
  | gapBetweenSubtrees
  | foreignSymbol
  | noTotalOrder
deriving DecidableEq, Repr

def UsageError.message : UsageError → String
  | emptyTerminalRule => "terminal production must produce at least one terminal"
  | negativeRuleWeight => "rule weights must be nonnegative"
  | zeroTreesPerEntry => "k-best width must be positive"
  | zeroBeamSize => "beam size must be positive"
  | zeroBeamWidth => "beam width must be positive"
  | zeroCapacity => "bounded heap needs a positive capacity"
  | gapBetweenSubtrees => "subtrees of a node must be adjacent"
  | foreignSymbol => "production from a different symbol table"
  | noTotalOrder =>
      "user-provided comparison function does not correctly implement a total order"

end WeightedParsing
