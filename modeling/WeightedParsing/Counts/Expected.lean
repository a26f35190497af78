import WeightedParsing.OrderedTable
import WeightedParsing.Rule
import WeightedParsing.Weight.Scalar

/-!
# Expected counts

How often each rule is expected to be used.  Counts of many sentences are merged
before they train a conditional table.
-/

namespace WeightedParsing

variable {K : Type} [Scalar K]

/-- A count for each of some rules; the others count zero. -/
structure ExpectedCounts (K : Type) where
  table : OrderedTable Rule K

namespace ExpectedCounts

def empty : ExpectedCounts K := ⟨.empty⟩

instance : Inhabited (ExpectedCounts K) := ⟨⟨.empty⟩⟩

def entries (counts : ExpectedCounts K) : List (Rule × K) := counts.table.entries

def isEmpty (counts : ExpectedCounts K) : Bool := counts.table.isEmpty

def get (counts : ExpectedCounts K) (rule : Rule) : K :=
  (counts.table.get? rule).getD 0

def add (counts : ExpectedCounts K) (rule : Rule) (amount : K) :
    ExpectedCounts K :=
  ⟨counts.table.update rule fun old => old.getD 0 + amount⟩

def addAll (counts : ExpectedCounts K) (amounts : List (Rule × K)) :
    ExpectedCounts K :=
  amounts.foldl (fun counts entry => counts.add entry.1 entry.2) counts

def merge (counts other : ExpectedCounts K) : ExpectedCounts K :=
  counts.addAll other.entries

def scale (counts : ExpectedCounts K) (factor : K) : ExpectedCounts K :=
  ⟨counts.table.mapValues fun count => count * factor⟩

end ExpectedCounts

end WeightedParsing
