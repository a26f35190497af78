import WeightedParsing.Chart.Basic

/-!
# Beam search

A beam keeps for each span the heaviest partial trees, whatever their roots, up
to a size.  A partial tree names its subtrees by their positions in the beams of
narrower spans, which no longer change once a wider span is filled.  Results are
approximate as soon as a beam had no room for a candidate.
-/

namespace WeightedParsing

/-- A partial tree in the beam of a span.  A binary entry holds the position of
the left child's last terminal and the positions of both children in their
beams. -/
inductive BeamEntry (S : Type) where
  | terminal (rule : TerminalRule) (ruleWeight : S)
  | binary (rule : BinaryRule) (ruleWeight : S) (split left right : Nat)

def BeamEntry.root {S : Type} : BeamEntry S → Symbol
  | terminal rule _ => rule.parent
  | binary rule _ _ _ _ => rule.parent

/-- The beam of a span, and whether a candidate ever came when it was full. -/
structure BeamCell (S : Type) where
  heap : BoundedHeap (BeamEntry S) S
  overflowed : Bool

variable {K S : Type} [WeightAlgebra K S]

namespace BeamCell

def empty (beamSize : Nat) (beamSize_pos : 0 < beamSize) : BeamCell S :=
  ⟨.empty beamSize beamSize_pos, false⟩

/-- The beam after it was offered a candidate; one of weight zero is none. -/
def offer (cell : BeamCell S) (candidate : BeamEntry S × S) : BeamCell S :=
  if WeightAlgebra.isZero candidate.2 then cell
  else
    { heap := cell.heap.offer candidate.1 candidate.2
      overflowed := cell.overflowed || cell.heap.isFull }

/-- The entries with a given root, each as its position and weight. -/
def withRoot (cell : BeamCell S) (root : Symbol) : List (Nat × S) :=
  cell.heap.toList.zipIdx.filterMap fun ((entry, weight), position) =>
    if entry.root = root then some (position, weight) else none

end BeamCell

def terminalCandidates (model : Model K) (input : List Symbol)
    (first last : Nat) : List (BeamEntry S × S) :=
  (model.policy.lexicalRules input first last).map fun rule =>
    let weight : S := model.weigh (.terminal rule)
    (.terminal rule weight, weight)

/-- The candidates that a binary rule makes of two beams. -/
def pairCandidates (model : Model K) (left right : BeamCell S) (split : Nat)
    (rule : BinaryRule) : List (BeamEntry S × S) :=
  let ruleWeight : S := model.weigh (.binary rule)
  if WeightAlgebra.isZero ruleWeight then []
  else
    (left.withRoot rule.left).flatMap fun (i, leftWeight) =>
      (right.withRoot rule.right).map fun (j, rightWeight) =>
        (.binary rule ruleWeight split i j,
          ruleWeight * leftWeight * rightWeight)

/-- The candidates for a span from the beams on either side of a split. -/
def splitCandidates (model : Model K) (beam : (first last : Nat) → BeamCell S)
    (first last split : Nat) : List (BeamEntry S × S) :=
  let left := beam first (first + split)
  let right := beam (first + split + 1) last
  if left.heap.isEmpty || right.heap.isEmpty then []
  else
    (model.policy.binaryRules first last split).flatMap
      (pairCandidates model left right (first + split))

/-- The beam of a span: it is offered the terminal candidates, and then those of
every split. -/
def fillBeamCell (model : Model K) (beamSize : Nat) (beamSize_pos : 0 < beamSize)
    (input : List Symbol) (beam : (first last : Nat) → BeamCell S)
    (first last : Nat) : BeamCell S :=
  (List.range (last - first)).foldl
    (fun cell split =>
      (splitCandidates model beam first last split).foldl BeamCell.offer cell)
    ((terminalCandidates model input first last).foldl BeamCell.offer
      (.empty beamSize beamSize_pos))

structure BeamChart (S : Type) where
  length : Nat
  beamSize : Nat
  beamSize_pos : 0 < beamSize
  cells : SpanTable (BeamCell S)

namespace BeamChart

def blank (length beamSize : Nat) (beamSize_pos : 0 < beamSize) : BeamChart S :=
  ⟨length, beamSize, beamSize_pos, .empty length (.empty beamSize beamSize_pos)⟩

/-- The chart whose beams were offered nothing, refused if nothing fits in. -/
def ofSize (length beamSize : Nat) : Except UsageError (BeamChart S) :=
  if h : 0 < beamSize then .ok (blank length beamSize h)
  else .error .zeroBeamSize

def run (model : Model K) (beamSize : Nat) (beamSize_pos : 0 < beamSize)
    (input : List Symbol) : BeamChart S where
  length := input.length
  beamSize
  beamSize_pos
  cells :=
    .sweep input.length (.empty beamSize beamSize_pos)
      (fillBeamCell model beamSize beamSize_pos input)
      (List.range input.length)

/-- Whether no beam ever lacked room, so that every derivation is held. -/
def isExact (chart : BeamChart S) : Bool :=
  (spansWidening chart.length).all fun (first, last) =>
    !(chart.cells.get first last).overflowed

def entries (chart : BeamChart S) (first last : Nat) :
    Except ChartError (List (BeamEntry S × S)) := do
  checkSpan chart.length first last
  return (chart.cells.get first last).heap.toList

/-- The tree at a position of the beam of a span.  An entry that would not split
its span is not followed. -/
def treeAt (chart : BeamChart S) (first last position : Nat) :
    Option (ParseTree S) :=
  match (chart.cells.get first last).heap.get? position with
  | none => none
  | some (.terminal rule ruleWeight, _) => some (.leaf rule ruleWeight first last)
  | some (.binary rule ruleWeight split i j, _) =>
      if _h : first ≤ split ∧ split < last then
        match chart.treeAt first split i, chart.treeAt (split + 1) last j with
        | some left, some right => some (.join rule ruleWeight left right)
        | _, _ => none
      else none
termination_by last - first
decreasing_by all_goals omega

def tree (chart : BeamChart S) (first last position : Nat) :
    Except ChartError (Option (ParseTree S)) := do
  checkSpan chart.length first last
  return chart.treeAt first last position

/-- The trees over the whole input, their roots weighted by a prior, the heaviest
first.  Trees that come to weigh zero are left out. -/
def trees [Scalar K] (chart : BeamChart S) (prior : RootPrior K) :
    List (ParseTree S) :=
  if chart.length = 0 then []
  else
    let last := chart.length - 1
    let held := (List.range (chart.cells.get 0 last).heap.size).filterMap
      (chart.treeAt 0 last)
    let weighted := held.map fun tree => tree.multiply (prior.weight tree.root)
    Ranked.sortDescending ParseTree.weight
      (weighted.filter fun tree => !WeightAlgebra.isZero tree.weight)

/-- The trees, if they are fit to be sorted; their order makes no difference to that. -/
def checkedTrees [Scalar K] (chart : BeamChart S) (prior : RootPrior K) :
    Except UsageError (List (ParseTree S)) :=
  let trees := chart.trees prior
  if Ranked.Sortable ParseTree.weight trees then .ok trees else .error .noTotalOrder

end BeamChart

end WeightedParsing
