import WeightedParsing.Chart.Basic

/-!
# Trees of a chart

In a selective algebra an entry stands for its heaviest derivation, which the
back-pointers spell out.  The `n` best trees of an entry come from its `n` best
back-pointers, each expanded with the `n` best trees on either side; of all these
combinations the `n` best are kept.
-/

namespace WeightedParsing

variable {K S : Type} [WeightAlgebra K S]

/-- The tree that follows the first back-pointer at every entry.  A back-pointer
that would not split its span is not followed. -/
def followFirst (back : Symbol → (first last : Nat) → Option (Backpointer S))
    (root : Symbol) (first last : Nat) : Option (ParseTree S) :=
  match back root first last with
  | none => none
  | some pointer =>
      match pointer.rule with
      | .terminal rule => some (.leaf rule pointer.ruleWeight first last)
      | .binary rule =>
          if _h : pointer.split < last - first then
            match followFirst back rule.left first (first + pointer.split),
              followFirst back rule.right (first + pointer.split + 1) last with
            | some left, some right =>
                some (.join rule pointer.ruleWeight left right)
            | _, _ => none
          else none
termination_by last - first
decreasing_by all_goals omega

/-- The trees through a back-pointer, from the best trees of its children, each
with its weight. -/
def treesThrough (trees : Symbol → (first last : Nat) → List (ParseTree S))
    (first last : Nat) (pointer : Backpointer S) : List (ParseTree S × S) :=
  match pointer.rule with
  | .terminal rule =>
      [(.leaf rule pointer.ruleWeight first last, pointer.ruleWeight)]
  | .binary rule =>
      (trees rule.left first (first + pointer.split)).flatMap fun left =>
        (trees rule.right (first + pointer.split + 1) last).map fun right =>
          (.join rule pointer.ruleWeight left right,
            pointer.ruleWeight * left.weight * right.weight)

/-- The best `count` of a list of weighted trees, the heaviest first. -/
def selectTrees (count : Nat) (count_pos : 0 < count)
    (trees : List (ParseTree S × S)) : List (ParseTree S) :=
  ((BoundedHeap.empty count count_pos).offerAll trees).drainDescending.map
    Prod.fst

namespace InsidePass

/-- The kept back-pointers of an entry, the heaviest first. -/
def sortedBackpointers (pass : InsidePass S) (symbol : Symbol)
    (first last : Nat) : List (Backpointer S) :=
  (pass.cells.get first last).sortedBackpointers symbol

def bestTree (pass : InsidePass S) (root : Symbol) (first last : Nat) :
    Option (ParseTree S) :=
  followFirst (fun symbol s e => (pass.sortedBackpointers symbol s e).head?)
    root first last

def treeTable (pass : InsidePass S) (count : Nat) (count_pos : 0 < count) :
    SpanTable (OrderedTable Symbol (List (ParseTree S))) :=
  SpanTable.sweep pass.cells.size .empty
    (fun look first last =>
      let trees := fun symbol s e => ((look s e).get? symbol).getD []
      (pass.cells.get first last).backpointers.mapValues fun heap =>
        selectTrees count count_pos
          (((heap.sorted.map Prod.fst).take count).flatMap
            (treesThrough trees first last)))
    (List.range pass.cells.size)

def bestTrees (pass : InsidePass S) (count : Nat) (count_pos : 0 < count)
    (root : Symbol) (first last : Nat) : List (ParseTree S) :=
  (((pass.treeTable count count_pos).get first last).get? root).getD []

def bestTreesForPrior (pass : InsidePass S) (count : Nat)
    (count_pos : 0 < count) (prior : SymbolWeights S) : List (ParseTree S) :=
  let whole := (pass.treeTable count count_pos).get 0 (pass.cells.size - 1)
  selectTrees count count_pos (prior.entries.flatMap fun entry =>
    ((whole.get? entry.1).getD []).filterMap fun tree =>
      let tree := tree.multiply entry.2
      if WeightAlgebra.isZero tree.weight then none
      else some (tree, tree.weight))

end InsidePass

namespace Chart

/-- Refuses a chart whose algebra has no best derivations. -/
def requireSelective (_ : Chart S) : Except ChartError Unit :=
  if WeightAlgebra.selective S then .ok () else .error .notSelective

def requireCount (chart : Chart S) (count : Nat) :
    Except ChartError (PLift (0 < count)) :=
  if h : 0 < count ∧ count ≤ chart.beamWidth then .ok ⟨h.1⟩
  else .error (.beamTooNarrow count chart.beamWidth)

def backpointers (chart : Chart S) (symbol : Symbol) (first last : Nat) :
    Except ChartError (List (Backpointer S)) := do
  chart.requireSelective
  let pass ← chart.insidePass
  checkSpan chart.length first last
  return pass.sortedBackpointers symbol first last

def bestTreeWithSpan (chart : Chart S) (root : Symbol) (first last : Nat) :
    Except ChartError (Option (ParseTree S)) := do
  chart.requireSelective
  let pass ← chart.insidePass
  checkSpan chart.length first last
  return pass.bestTree root first last

def bestTree (chart : Chart S) (root : Symbol) :
    Except ChartError (Option (ParseTree S)) := do
  let _ ← chart.insidePass
  chart.bestTreeWithSpan root 0 (chart.length - 1)

def bestTreesWithSpan (chart : Chart S) (root : Symbol) (first last count : Nat) :
    Except ChartError (List (ParseTree S)) := do
  chart.requireSelective
  let pass ← chart.insidePass
  let count_pos ← chart.requireCount count
  checkSpan chart.length first last
  return pass.bestTrees count count_pos.down root first last

def bestTrees (chart : Chart S) (root : Symbol) (count : Nat) :
    Except ChartError (List (ParseTree S)) := do
  let _ ← chart.insidePass
  chart.bestTreesWithSpan root 0 (chart.length - 1) count

def bestTreesForPrior (chart : Chart S) (prior : SymbolWeights S) (count : Nat) :
    Except ChartError (List (ParseTree S)) := do
  chart.requireSelective
  let pass ← chart.insidePass
  let count_pos ← chart.requireCount count
  return pass.bestTreesForPrior count count_pos.down prior

end Chart

end WeightedParsing
