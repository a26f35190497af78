import WeightedParsing.Chart.Inside
import WeightedParsing.Counts.Expected

/-!
# The outside pass

The outside weight of a symbol over a span sums, over all complete derivations
with that constituent cut out, the weights of what is left.  A cell gathers it
from the wider spans in which the constituent is a child.  Inside and outside
weights together give marginals, expected uses of rules and the partition
function.
-/

namespace WeightedParsing

variable {K S : Type} [WeightAlgebra K S]

/-- A binary rule applied in a complete derivation: its own weight, the inside
weights of its children and the outside weight of its parent. -/
structure RuleUse (S : Type) where
  rule : BinaryRule
  ruleWeight : S
  left : S
  right : S
  parent : S

namespace RuleUse

def leftShare (use : RuleUse S) : Symbol × S :=
  (use.rule.left, use.ruleWeight * use.right * use.parent)

def rightShare (use : RuleUse S) : Symbol × S :=
  (use.rule.right, use.ruleWeight * use.left * use.parent)

def expectation (use : RuleUse S) : Rule × S :=
  (.binary use.rule, use.ruleWeight * use.left * use.right * use.parent)

end RuleUse

/-- The binary rules used at a split of a span whose parent has outside weight
and whose children have inside weight. -/
def ruleUses (model : Model K)
    (inside outside : (first last : Nat) → SymbolWeights S)
    (first last split : Nat) : List (RuleUse S) :=
  let parents := outside first last
  let lefts := inside first (first + split)
  let rights := inside (first + split + 1) last
  (model.policy.binaryRules first last split).filterMap fun rule =>
    let parent := parents.get rule.parent
    if WeightAlgebra.isZero parent then none
    else
      let left := lefts.get rule.left
      let right := rights.get rule.right
      if WeightAlgebra.isZero left || WeightAlgebra.isZero right then none
      else some ⟨rule, model.weigh (.binary rule), left, right, parent⟩

/-- What a span gains from the spans that are wider by `size` than one terminal:
first from the one that ends with it, then from the one that starts with it. -/
def sharesFromWidth (model : Model K)
    (inside outside : (first last : Nat) → SymbolWeights S)
    (length first last width : Nat) : List (Symbol × S) :=
  (if width ≤ last then
    (ruleUses model inside outside (last - width) last
      (first - 1 - (last - width))).map RuleUse.rightShare
  else []) ++
  (if first + width < length then
    (ruleUses model inside outside first (first + width)
      (last - first)).map RuleUse.leftShare
  else [])

/-- What a span gains from all wider spans, the widest first. -/
def outsideShares (model : Model K)
    (inside outside : (first last : Nat) → SymbolWeights S)
    (length first last : Nat) : List (Symbol × S) :=
  (List.range (length - 1 - (last - first))).flatMap fun i =>
    sharesFromWidth model inside outside length first last (length - 1 - i)

/-- The outside weights of all spans, filled from the whole input down. -/
def outsideCells (model : Model K) (root : SymbolWeights S)
    (inside : (first last : Nat) → SymbolWeights S) (length : Nat) :
    SpanTable (SymbolWeights S) :=
  SpanTable.sweep length .empty
    (fun outside first last =>
      if last - first + 1 = length then root
      else .ofList (outsideShares model inside outside length first last))
    (List.range length).reverse

/-- Inside times outside weight, for each symbol with inside weight. -/
def marginalWeights (inside outside : SymbolWeights S) : SymbolWeights S :=
  .ofList (inside.entries.map fun entry =>
    (entry.1, entry.2 * outside.get entry.1))

/-- Every use of a binary rule, with its weight: the widest spans first. -/
def binaryUses (model : Model K)
    (inside outside : (first last : Nat) → SymbolWeights S) (first last : Nat) :
    List (Rule × S) :=
  (List.range (last - first)).flatMap fun split =>
    (ruleUses model inside outside first last split).map RuleUse.expectation

/-- Every use of a terminal rule over a span, with its weight. -/
def terminalUses (model : Model K) (input : List Symbol)
    (outside : (first last : Nat) → SymbolWeights S) (first last : Nat) :
    List (Rule × S) :=
  (model.policy.lexicalRules input first last).filterMap fun rule =>
    let parent := (outside first last).get rule.parent
    if WeightAlgebra.isZero parent then none
    else some (.terminal rule, model.weigh (.terminal rule) * parent)

/-- Adds a weight to the entry of a rule, unless the weight is zero. -/
def addExpectation (table : OrderedTable Rule S) (use : Rule × S) :
    OrderedTable Rule S :=
  if WeightAlgebra.isZero use.2 then table
  else table.update use.1 fun old => old.getD 0 + use.2

/-- The summed weights of all uses of each rule. -/
def expectedUses (model : Model K) (input : List Symbol)
    (inside outside : (first last : Nat) → SymbolWeights S) :
    OrderedTable Rule S :=
  let binary := (spansNarrowing input.length).foldl
    (fun table span =>
      (binaryUses model inside outside span.1 span.2).foldl addExpectation table)
    OrderedTable.empty
  (spansWidening input.length).foldl
    (fun table span =>
      (terminalUses model input outside span.1 span.2).foldl addExpectation table)
    binary

structure OutsidePass (S : Type) where
  /-- The prior, restricted to the symbols that derive the input. -/
  root : SymbolWeights S
  /-- The summed weight of all complete derivations. -/
  partition : S
  outside : SpanTable (SymbolWeights S)
  marginal : SpanTable (SymbolWeights S)
  expectations : OrderedTable Rule S

/-- The sum of prior weight times inside weight over the entries of a prior. -/
def partitionFunction (root inside : SymbolWeights S) : S :=
  root.entries.foldl (fun sum entry => sum + inside.get entry.1 * entry.2) 0

namespace OutsidePass

variable [Scalar K]

def run (model : Model K) (prior : RootPrior K) (pass : InsidePass S) :
    OutsidePass S :=
  let length := pass.input.length
  let whole := pass.inside 0 (length - 1)
  let root : SymbolWeights S := prior.restrictTo whole.symbols
  let outside := outsideCells model root pass.inside length
  { root
    partition := partitionFunction root whole
    outside
    marginal := pass.cells.mapSpans .empty fun first last cell =>
      marginalWeights cell.weights (outside.get first last)
    expectations := expectedUses model pass.input pass.inside outside.get }

/-- The summed weights of all uses of each rule, divided by the partition
function.  There are none if that is zero. -/
def normalizedCounts (pass : OutsidePass S) : ExpectedCounts K :=
  if WeightAlgebra.isZero pass.partition then .empty
  else
    .addAll .empty (pass.expectations.entries.map fun entry =>
      (entry.1,
        WeightAlgebra.toWeight (WeightAlgebra.divide entry.2 pass.partition)))

end OutsidePass

end WeightedParsing
