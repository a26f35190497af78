import Std.Data.HashMap
import WeightedParsing.Rule
import WeightedParsing.Weight.Scalar

/-!
# Rule weights

A rule weight is a scalar that is not negative.  A table of rule weights gives
zero to the rules that it does not hold.
-/

namespace WeightedParsing

variable {K : Type} [Scalar K]

def RuleWeight (K : Type) [Scalar K] : Type :=
  { weight : K // Ranked.le 0 weight = true }

/-- The rule weight of a scalar, refused if it is negative or compares with
nothing. -/
def RuleWeight.ofScalar (weight : K) : Except UsageError (RuleWeight K) :=
  if h : Ranked.le 0 weight = true then .ok ⟨weight, h⟩
  else .error .negativeRuleWeight

/-- A weight for each of some rules; the others weigh zero. -/
structure RuleWeights (K : Type) [Scalar K] where
  table : Std.HashMap Rule (RuleWeight K)

namespace RuleWeights

def empty : RuleWeights K := ⟨∅⟩

def set (weights : RuleWeights K) (rule : Rule) (weight : RuleWeight K) :
    RuleWeights K :=
  ⟨weights.table.insert rule weight⟩

def get (weights : RuleWeights K) (rule : Rule) : K :=
  (weights.table[rule]?.map Subtype.val).getD 0

def size (weights : RuleWeights K) : Nat := weights.table.size

end RuleWeights

end WeightedParsing
