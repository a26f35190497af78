import WeightedParsing.BoundedHeap
import WeightedParsing.Chart.SpanTable
import WeightedParsing.Model

/-!
# The inside pass

The inside weight of a symbol over a span sums the weights of its derivations.
A cell lists the ways to build its entries, each a back-pointer: first the
terminal rules for the span, then for every split the binary rules whose
children have weight.  Ways of weight zero are left out.  In a selective algebra
a cell also keeps, for each symbol, its heaviest back-pointers.
-/

namespace WeightedParsing

/-- A way to build an entry: the rule, the offset of the left child's last
terminal (zero for a terminal rule), the weight of the derivation and that of
the rule. -/
structure Backpointer (S : Type) where
  split : Nat
  rule : Rule
  derivationWeight : S
  ruleWeight : S

structure InsideCell (S : Type) where
  weights : SymbolWeights S
  backpointers : OrderedTable Symbol (BoundedHeap (Backpointer S) S)

variable {K S : Type} [WeightAlgebra K S]

/-- The ways to build a span from terminal rules. -/
def terminalBackpointers (model : Model K) (input : List Symbol)
    (first last : Nat) : List (Backpointer S) :=
  (model.policy.lexicalRules input first last).filterMap fun rule =>
    let weight : S := model.weigh (.terminal rule)
    if WeightAlgebra.isZero weight then none
    else some ⟨0, .terminal rule, weight, weight⟩

/-- The way to build a span by a binary rule over two cells, if its weight and
those of its children are not zero. -/
def binaryBackpointer? (model : Model K) (left right : SymbolWeights S)
    (split : Nat) (rule : BinaryRule) : Option (Backpointer S) :=
  let leftWeight := left.get rule.left
  if WeightAlgebra.isZero leftWeight then none
  else
    let rightWeight := right.get rule.right
    if WeightAlgebra.isZero rightWeight then none
    else
      let ruleWeight : S := model.weigh (.binary rule)
      let weight := ruleWeight * leftWeight * rightWeight
      if WeightAlgebra.isZero weight then none
      else some ⟨split, .binary rule, weight, ruleWeight⟩

/-- The ways to build a span from two narrower ones. -/
def binaryBackpointers (model : Model K)
    (inside : (first last : Nat) → SymbolWeights S) (first last : Nat) :
    List (Backpointer S) :=
  (List.range (last - first)).flatMap fun split =>
    let left := inside first (first + split)
    let right := inside (first + split + 1) last
    (model.policy.binaryRules first last split).filterMap
      (binaryBackpointer? model left right split)

def insideBackpointers (model : Model K) (input : List Symbol)
    (inside : (first last : Nat) → SymbolWeights S) (first last : Nat) :
    List (Backpointer S) :=
  terminalBackpointers model input first last ++
    binaryBackpointers model inside first last

namespace InsideCell

def empty : InsideCell S := ⟨.empty, .empty⟩

def add (width : Nat) (width_pos : 0 < width) (cell : InsideCell S)
    (back : Backpointer S) : InsideCell S where
  weights := cell.weights.combine back.rule.parent back.derivationWeight
  backpointers :=
    if WeightAlgebra.selective S then
      cell.backpointers.update back.rule.parent fun heap =>
        (heap.getD (.empty width width_pos)).offer back back.derivationWeight
    else cell.backpointers

def ofBackpointers (width : Nat) (width_pos : 0 < width)
    (backs : List (Backpointer S)) : InsideCell S :=
  backs.foldl (add width width_pos) empty

/-- The kept back-pointers of a symbol, the heaviest first. -/
def sortedBackpointers (cell : InsideCell S) (symbol : Symbol) :
    List (Backpointer S) :=
  match cell.backpointers.get? symbol with
  | some heap => heap.sorted.map Prod.fst
  | none => []

end InsideCell

/-- The cells of all spans of an input, filled from the narrow ones on. -/
def insideCells (model : Model K) (width : Nat) (width_pos : 0 < width)
    (input : List Symbol) : SpanTable (InsideCell S) :=
  SpanTable.sweep input.length .empty
    (fun look first last =>
      .ofBackpointers width width_pos
        (insideBackpointers model input
          (fun s e => (look s e).weights) first last))
    (List.range input.length)

structure InsidePass (S : Type) where
  input : List Symbol
  cells : SpanTable (InsideCell S)

namespace InsidePass

/-- Runs the inside pass, keeping up to `width` back-pointers for each entry. -/
def run (model : Model K) (width : Nat) (width_pos : 0 < width)
    (input : List Symbol) : InsidePass S :=
  ⟨input, insideCells model width width_pos input⟩

def inside (pass : InsidePass S) (first last : Nat) : SymbolWeights S :=
  (pass.cells.get first last).weights

end InsidePass

end WeightedParsing
