import WeightedParsing.Chart.Extraction
import WeightedParsing.Checked

/-!
# Passes and trees with checks

The two passes over an input and the extraction of trees once more, with every look-up into
a table and every difference checked, every node refused whose children do not meet, and
every sort refused whose entries are not fit for it.  Heaps stay unchecked: their positions
carry their bounds.  The best trees are taken from the children of an entry when they are
asked for, and not from a table of all trees.
-/

namespace WeightedParsing

variable {K S : Type} [WeightAlgebra K S]

namespace Checked

/-! ## The inside pass -/

def binaryBackpointers (model : Model K)
    (inside : (first last : Nat) → Checked (SymbolWeights S)) (first last : Nat) :
    Checked (List (Backpointer S)) := do
  let splits ← sub last first
  gather (fun split => do
      let left ← inside first (first + split)
      let right ← inside (first + split + 1) last
      return (model.policy.binaryRules first last split).filterMap
        (binaryBackpointer? model left right split))
    (List.range splits)

/-- Reads the weights of a cell. -/
def weightsOf (cells : (first last : Nat) → Checked (InsideCell S)) (first last : Nat) :
    Checked (SymbolWeights S) := do
  return (← cells first last).weights

def insideCells (model : Model K) (width : Nat) (width_pos : 0 < width)
    (input : List Symbol) : Checked (SpanTable (InsideCell S)) :=
  sweep input.length .empty
    (fun look first last => do
      let binary ← binaryBackpointers model (weightsOf look) first last
      return .ofBackpointers width width_pos
        (terminalBackpointers model input first last ++ binary))
    (List.range input.length)

def insidePass (model : Model K) (width : Nat) (width_pos : 0 < width)
    (input : List Symbol) : Checked (InsidePass S) := do
  return ⟨input, ← insideCells model width width_pos input⟩

/-! ## The outside pass -/

def ruleUses (model : Model K)
    (inside outside : (first last : Nat) → Checked (SymbolWeights S))
    (first last split : Nat) : Checked (List (RuleUse S)) := do
  let parents ← outside first last
  let lefts ← inside first (first + split)
  let rights ← inside (first + split + 1) last
  return (model.policy.binaryRules first last split).filterMap fun rule =>
    let parent := parents.get rule.parent
    if WeightAlgebra.isZero parent then none
    else
      let left := lefts.get rule.left
      let right := rights.get rule.right
      if WeightAlgebra.isZero left || WeightAlgebra.isZero right then none
      else some ⟨rule, model.weigh (.binary rule), left, right, parent⟩

/-- What a span gains from the one that is wider and ends with it. -/
def rightShares (model : Model K)
    (inside outside : (first last : Nat) → Checked (SymbolWeights S))
    (first last width : Nat) : Checked (List (Symbol × S)) :=
  if width ≤ last then do
    let start ← sub last width
    let before ← sub first 1
    let split ← sub before start
    let uses ← ruleUses model inside outside start last split
    return uses.map RuleUse.rightShare
  else .ok []

/-- What a span gains from the one that is wider and starts with it. -/
def leftShares (model : Model K)
    (inside outside : (first last : Nat) → Checked (SymbolWeights S))
    (length first last width : Nat) : Checked (List (Symbol × S)) :=
  if first + width < length then do
    let split ← sub last first
    let uses ← ruleUses model inside outside first (first + width) split
    return uses.map RuleUse.leftShare
  else .ok []

def sharesFromWidth (model : Model K)
    (inside outside : (first last : Nat) → Checked (SymbolWeights S))
    (length first last width : Nat) : Checked (List (Symbol × S)) := do
  let ending ← rightShares model inside outside first last width
  let starting ← leftShares model inside outside length first last width
  return ending ++ starting

def outsideShares (model : Model K)
    (inside outside : (first last : Nat) → Checked (SymbolWeights S))
    (length first last : Nat) : Checked (List (Symbol × S)) := do
  let widest ← sub length 1
  let width ← sub last first
  let wider ← sub widest width
  gather (fun i => do
      let width ← sub widest i
      sharesFromWidth model inside outside length first last width)
    (List.range wider)

def outsideCells (model : Model K) (root : SymbolWeights S)
    (inside : (first last : Nat) → Checked (SymbolWeights S)) (length : Nat) :
    Checked (SpanTable (SymbolWeights S)) :=
  sweep length .empty
    (fun outside first last => do
      let width ← sub last first
      if width + 1 = length then return root
      else
        let shares ← outsideShares model inside outside length first last
        return .ofList shares)
    (List.range length).reverse

def binaryUses (model : Model K)
    (inside outside : (first last : Nat) → Checked (SymbolWeights S)) (first last : Nat) :
    Checked (List (Rule × S)) := do
  let splits ← sub last first
  gather (fun split => do
      let uses ← ruleUses model inside outside first last split
      return uses.map RuleUse.expectation)
    (List.range splits)

def terminalUses (model : Model K) (input : List Symbol)
    (outside : (first last : Nat) → Checked (SymbolWeights S)) (first last : Nat) :
    Checked (List (Rule × S)) := do
  let parents ← outside first last
  return WeightedParsing.terminalUses model input (fun _ _ => parents) first last

/-- Adds the uses over some spans to a table, span by span. -/
def addUses (uses : (first last : Nat) → Checked (List (Rule × S)))
    (spans : List (Nat × Nat)) (table : OrderedTable Rule S) :
    Checked (OrderedTable Rule S) :=
  spans.foldlM
    (fun table span => do
      let found ← uses span.1 span.2
      return found.foldl addExpectation table)
    table

def expectedUses (model : Model K) (input : List Symbol)
    (inside outside : (first last : Nat) → Checked (SymbolWeights S)) :
    Checked (OrderedTable Rule S) := do
  let binary ← addUses (binaryUses model inside outside) (spansNarrowing input.length) .empty
  addUses (terminalUses model input outside) (spansWidening input.length) binary

def marginalCells (cells : SpanTable (InsideCell S)) (outside : SpanTable (SymbolWeights S)) :
    Checked (SpanTable (SymbolWeights S)) :=
  sweep cells.size .empty
    (fun _ first last => do
      let cell ← cells.read first last
      let above ← outside.read first last
      return marginalWeights cell.weights above)
    (List.range cells.size)

def outsidePass [Scalar K] (model : Model K) (prior : RootPrior K) (pass : InsidePass S) :
    Checked (OutsidePass S) := do
  let length := pass.input.length
  let inside := weightsOf pass.cells.read
  let widest ← sub length 1
  let whole ← inside 0 widest
  let root : SymbolWeights S := prior.restrictTo whole.symbols
  let outside ← outsideCells model root inside length
  let marginal ← marginalCells pass.cells outside
  let expectations ← expectedUses model pass.input inside outside.read
  return { root, partition := partitionFunction root whole, outside, marginal, expectations }

end Checked

/-! ## Extraction -/

/-- Whether the back-pointers of a symbol are fit to be sorted. -/
def InsideCell.Sortable (cell : InsideCell S) (symbol : Symbol) : Prop :=
  ∀ heap ∈ cell.backpointers.get? symbol, heap.Sortable

instance (cell : InsideCell S) (symbol : Symbol) : Decidable (cell.Sortable symbol) :=
  inferInstanceAs (Decidable (∀ heap ∈ cell.backpointers.get? symbol, heap.Sortable))

/-- Whether the back-pointers of every entry are fit to be sorted. -/
def InsidePass.Sortable (pass : InsidePass S) : Prop :=
  ∀ span ∈ spansWidening pass.cells.size,
    ∀ entry ∈ (pass.cells.get span.1 span.2).backpointers.entries, entry.2.Sortable

instance (pass : InsidePass S) : Decidable pass.Sortable :=
  inferInstanceAs (Decidable (∀ span ∈ spansWidening pass.cells.size,
    ∀ entry ∈ (pass.cells.get span.1 span.2).backpointers.entries, entry.2.Sortable))

namespace Checked

/-- The node over two trees, whose spans have to meet. -/
def join (rule : BinaryRule) (ruleWeight : S) (left right : ParseTree S) :
    Checked (ParseTree S) :=
  match ParseTree.joinAdjacent rule ruleWeight left right with
  | .ok tree => .ok tree
  | .error e => .error (.misuse e)

def followFirst (back : Symbol → (first last : Nat) → Checked (Option (Backpointer S)))
    (root : Symbol) (first last : Nat) : Checked (Option (ParseTree S)) := do
  match ← back root first last with
  | none => return none
  | some pointer =>
      match pointer.rule with
      | .terminal rule => return some (.leaf rule pointer.ruleWeight first last)
      | .binary rule =>
          if _h : pointer.split < last - first then do
            match ← followFirst back rule.left first (first + pointer.split) with
            | none => return none
            | some left =>
                match ← followFirst back rule.right (first + pointer.split + 1) last with
                | none => return none
                | some right =>
                    let tree ← join rule pointer.ruleWeight left right
                    return some tree
          else .error (.runaway pointer.split first last)
termination_by last - first
decreasing_by all_goals omega

/-- The nodes over all pairs of trees, each with its weight. -/
def joins (rule : BinaryRule) (ruleWeight : S) (lefts rights : List (ParseTree S)) :
    Checked (List (ParseTree S × S)) :=
  gather (fun left => rights.mapM fun right => do
      let tree ← join rule ruleWeight left right
      return (tree, ruleWeight * left.weight * right.weight))
    lefts

/-- The best trees of an entry, from the best trees of its children. -/
def bestTrees (back : Symbol → (first last : Nat) → Checked (List (Backpointer S)))
    (count : Nat) (count_pos : 0 < count) (root : Symbol) (first last : Nat) :
    Checked (List (ParseTree S)) := do
  let pointers ← back root first last
  let trees ← gather (fun pointer =>
      match pointer.rule with
      | .terminal rule =>
          return [(.leaf rule pointer.ruleWeight first last, pointer.ruleWeight)]
      | .binary rule =>
          if _h : pointer.split < last - first then do
            let lefts ← bestTrees back count count_pos rule.left first (first + pointer.split)
            let rights ←
              bestTrees back count count_pos rule.right (first + pointer.split + 1) last
            joins rule pointer.ruleWeight lefts rights
          else .error (.runaway pointer.split first last))
    (pointers.take count)
  return selectTrees count count_pos trees
termination_by last - first
decreasing_by all_goals omega

/-- Reads the kept back-pointers of an entry, which have to be fit to be sorted. -/
def sortedBackpointers (pass : InsidePass S) (symbol : Symbol) (first last : Nat) :
    Checked (List (Backpointer S)) := do
  let cell ← pass.cells.read first last
  if cell.Sortable symbol then return cell.sortedBackpointers symbol
  else .error (.misuse .noTotalOrder)

def bestTree (pass : InsidePass S) (root : Symbol) (first last : Nat) :
    Checked (Option (ParseTree S)) :=
  followFirst
    (fun symbol first last => do
      let pointers ← sortedBackpointers pass symbol first last
      return pointers.head?)
    root first last

/-- The best trees over the whole input, where every root has a weight. -/
def bestTreesForPrior (pass : InsidePass S) (count : Nat) (count_pos : 0 < count)
    (prior : SymbolWeights S) : Checked (List (ParseTree S)) := do
  let trees ← gather (fun entry => do
      let widest ← sub pass.cells.size 1
      let trees ← bestTrees (sortedBackpointers pass) count count_pos entry.1 0 widest
      return trees.filterMap fun tree =>
        let tree := tree.multiply entry.2
        if WeightAlgebra.isZero tree.weight then none else some (tree, tree.weight))
    prior.entries
  return selectTrees count count_pos trees

end Checked

end WeightedParsing
