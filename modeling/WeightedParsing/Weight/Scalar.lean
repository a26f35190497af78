import WeightedParsing.Weight.Ranked

/-!
# Scalars

Rule weights, counts and probabilities are scalars.  The class holds the
operations that parsing and training use and asks for no law, so that machine
numbers and exact numbers are both instances.
-/

namespace WeightedParsing

/-- The arithmetic of rule weights and counts. -/
class Scalar (K : Type) extends
    Zero K, One K, Add K, Mul K, Div K, NatCast K, Ranked K where
  ln : K → K

instance : Scalar Float where
  zero := 0
  one := 1
  natCast := Float.ofNat
  ln := Float.log

end WeightedParsing
