import WeightedParsing.Weight.Linear
import WeightedParsing.Weight.Log

/-!
# Choosing an algebra

The four algebras over floats as the values of one type, for programs that learn
only while they run which one to use.
-/

namespace WeightedParsing

/-- One of the four algebras over floats. -/
inductive WeightKind where
  | sum
  | max
  | logSum
  | logMax
deriving DecidableEq, Repr

namespace WeightKind

def Carrier : WeightKind → Type
  | sum => SumProduct Float
  | max => MaxProduct Float
  | logSum => LogSumProduct
  | logMax => LogMaxProduct

instance (kind : WeightKind) : WeightAlgebra Float kind.Carrier :=
  match kind with
  | sum => inferInstanceAs (WeightAlgebra Float (SumProduct Float))
  | max => inferInstanceAs (WeightAlgebra Float (MaxProduct Float))
  | logSum => inferInstanceAs (WeightAlgebra Float LogSumProduct)
  | logMax => inferInstanceAs (WeightAlgebra Float LogMaxProduct)

def ofName? : String → Option WeightKind
  | "sum" => some sum
  | "max" => some max
  | "logsum" => some logSum
  | "logmax" => some logMax
  | _ => none

def ofStored : (kind : WeightKind) → Float → kind.Carrier
  | sum, x => SumProduct.mk x
  | max, x => MaxProduct.mk x
  | logSum, x => LogSumProduct.mk x
  | logMax, x => LogMaxProduct.mk x

def stored : (kind : WeightKind) → kind.Carrier → Float
  | sum, weight => SumProduct.value weight
  | max, weight => MaxProduct.value weight
  | logSum, weight => LogSumProduct.log weight
  | logMax, weight => LogMaxProduct.log weight

end WeightKind

end WeightedParsing
