import WeightedParsing.Weight.Scalar

/-!
# Weight algebras

A chart is filled by the same two passes whatever its entries are; the weight
algebra says how weights of alternatives and of parts combine.  An algebra is
selective when a sum is one of its two operands.  Only then is there a best
derivation behind an entry, and only then are back-pointers kept.
-/

namespace WeightedParsing

/-- Weights of derivations over the rule weights `K`. -/
class WeightAlgebra (K : outParam Type) (S : Type) extends
    Zero S, One S, Add S, Mul S, BEq S, Ranked S where
  /-- Whether a sum is always one of its operands. -/
  selective : Bool
  /-- Whether logarithms are stored, so that small weights do not vanish. -/
  logSpace : Bool
  /-- The weight of a nonnegative rule weight. -/
  ofWeight : K → S
  /-- The (not normalized) probability that a weight stands for. -/
  toWeight : S → K
  /-- The natural logarithm of that probability. -/
  logWeight : S → K
  /-- The inverse of multiplication. -/
  divide : S → S → S

namespace WeightAlgebra

variable {K S : Type} [WeightAlgebra K S]

/-- Whether a weight equals the weight of no derivation. -/
def isZero (a : S) : Bool := a == 0

end WeightAlgebra

end WeightedParsing
