import WeightedParsing.Grammar.Policy
import WeightedParsing.ParseTree
import WeightedParsing.RootPrior

/-!
# Models

What a parser is given besides its input: a policy that says which rules may be
used where, and a weight for every rule.
-/

namespace WeightedParsing

structure Model (K : Type) where
  policy : Policy
  ruleWeight : Rule → K

namespace Model

variable {K S : Type}

def weigh [WeightAlgebra K S] (model : Model K) (rule : Rule) : S :=
  WeightAlgebra.ofWeight (model.ruleWeight rule)

/-- The product of the weights of the rules of a tree, whatever weights the tree
itself carries. -/
def ruleProduct [Scalar K] (model : Model K) : ParseTree S → K
  | .leaf rule _ _ _ => model.ruleWeight (.terminal rule)
  | .node parent ruleType left right _ =>
      model.ruleWeight
          (.binary { parent, left := left.root, right := right.root, ruleType }) *
        model.ruleProduct left * model.ruleProduct right

/-- The (not normalized) probability of a tree under the rule weights and a
prior over its root. -/
def treeProbability [Scalar K] [WeightAlgebra K S] (model : Model K)
    (prior : RootPrior K) (tree : ParseTree S) : K :=
  model.ruleProduct tree * WeightAlgebra.toWeight (prior.weight tree.root : S)

end Model

end WeightedParsing
