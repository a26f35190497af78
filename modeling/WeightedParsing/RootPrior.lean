import WeightedParsing.SymbolWeights

/-!
# Priors over the root

A parse may be known to have a certain root, or roots may be weighted.  A prior
gives every symbol its weight as the root of the whole input.
-/

namespace WeightedParsing

/-- The weight of each symbol as the root of the whole input. -/
inductive RootPrior (K : Type) where
  /-- Every symbol may be the root and weighs one. -/
  | uniform
  /-- The root is known. -/
  | point (symbol : Symbol)
  /-- Roots weigh what a table says, and nothing if it says nothing. -/
  | weighted (weights : OrderedTable Symbol K)

namespace RootPrior

variable {K S : Type} [Scalar K] [WeightAlgebra K S]

def weight (prior : RootPrior K) (root : Symbol) : S :=
  match prior with
  | uniform => 1
  | point symbol => if symbol = root then 1 else 0
  | weighted weights => WeightAlgebra.ofWeight ((weights.get? root).getD 0)

/-- The prior restricted to a list of candidate roots. -/
def restrictTo (prior : RootPrior K) (candidates : List Symbol) : SymbolWeights S :=
  .ofList (candidates.map fun root => (root, prior.weight root))

end RootPrior

end WeightedParsing
