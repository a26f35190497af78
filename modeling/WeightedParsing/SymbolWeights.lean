import WeightedParsing.OrderedTable
import WeightedParsing.Symbol
import WeightedParsing.Weight.Algebra

/-!
# Weights over symbols

What a chart cell stores: a weight for each of some symbols.  A symbol without
an entry weighs zero, and combining in a weight of zero makes no entry.
-/

namespace WeightedParsing

/-- A weight for each of some symbols; the others weigh zero. -/
structure SymbolWeights (S : Type) where
  table : OrderedTable Symbol S

/-- What is known of the heaviest entry of some weights. -/
inductive Peak (S : Type) where
  | none
  | undefined
  | unique (symbol : Symbol) (weight : S)
  | tied (weight : S)

namespace SymbolWeights

variable {K S : Type} [WeightAlgebra K S]

def empty : SymbolWeights S := ⟨.empty⟩

instance : Inhabited (SymbolWeights S) := ⟨⟨.empty⟩⟩

def entries (weights : SymbolWeights S) : List (Symbol × S) :=
  weights.table.entries

def symbols (weights : SymbolWeights S) : List Symbol := weights.table.keys

def size (weights : SymbolWeights S) : Nat := weights.table.size

def isEmpty (weights : SymbolWeights S) : Bool := weights.table.isEmpty

def get (weights : SymbolWeights S) (symbol : Symbol) : S :=
  (weights.table.get? symbol).getD 0

/-- Adds a weight to the entry of a symbol, unless the weight is zero. -/
def combine (weights : SymbolWeights S) (symbol : Symbol) (weight : S) :
    SymbolWeights S :=
  if WeightAlgebra.isZero weight then weights
  else ⟨weights.table.update symbol fun old => old.getD 0 + weight⟩

def combineAll (weights : SymbolWeights S) (entries : List (Symbol × S)) :
    SymbolWeights S :=
  entries.foldl (fun weights entry => weights.combine entry.1 entry.2) weights

/-- The weights of a list; those of one symbol are added up. -/
def ofList (entries : List (Symbol × S)) : SymbolWeights S :=
  empty.combineAll entries

/-- All of the weight, which is one, on a single symbol. -/
def point (symbol : Symbol) : SymbolWeights S := empty.combine symbol 1

def ofTable (table : OrderedTable Symbol K) : SymbolWeights S :=
  ofList (table.entries.map fun entry =>
    (entry.1, WeightAlgebra.ofWeight entry.2))

def total (weights : SymbolWeights S) : S :=
  weights.entries.foldl (fun sum entry => sum + entry.2) 0

def toWeights (weights : SymbolWeights S) : List (Symbol × K) :=
  weights.entries.map fun entry => (entry.1, WeightAlgebra.toWeight entry.2)

/-- The first entry that no later entry beats. -/
def argmax (weights : SymbolWeights S) : Option (Symbol × S) :=
  weights.entries.foldl
    (fun best entry =>
      match best with
      | some (symbol, weight) =>
          if Ranked.le entry.2 weight then some (symbol, weight) else some entry
      | none => some entry)
    none

/-- The heaviest entry, as far as the comparison of weights determines it. -/
def peak (weights : SymbolWeights S) : Peak S :=
  if weights.entries.any fun entry => !Ranked.le entry.2 entry.2 then .undefined
  else
    match weights.argmax with
    | none => .none
    | some (symbol, weight) =>
        let equal := weights.entries.filter fun entry => entry.2 == weight
        if equal.length == 1 then .unique symbol weight else .tied weight

end SymbolWeights

def sortBySymbol {α : Type} (entries : List (Symbol × α)) : List (Symbol × α) :=
  entries.mergeSort fun a b => a.1.id ≤ b.1.id

end WeightedParsing
