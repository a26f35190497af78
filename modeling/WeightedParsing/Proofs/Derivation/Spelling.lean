import WeightedParsing.Proofs.Derivation.Tree
import WeightedParsing.Proofs.Weight.Exact
import WeightedParsing.Proofs.Weight.Homomorphism

/-!
# Trees that spell derivations

A tree that is put together from rules of a policy spells out a derivation, whatever laws
the weights of its parts obey.  Its rules can then be read off it again: the children of
every node carry the very symbols that the rule of the node asks for, so that looking the
rules up and multiplying their weights comes to the weight of the tree, as far as products
are computed without rounding.
-/

namespace WeightedParsing

variable {K S : Type} [WeightAlgebra K S]

/-- The tree spells out a derivation that the policy of the model allows, and weighs as
much. -/
def ParseTree.Spells (model : Model K) (input : List Symbol) (x : Symbol)
    (first last : Nat) (tree : ParseTree S) : Prop :=
  ∃ d, Derives model.policy input x first last d ∧ tree = d.tree model first last ∧
    tree.weight = d.weight model

section Parts

variable {model : Model K} {input : List Symbol} {first last : Nat}

theorem Derives.spells_tree {x : Symbol} {d : Derivation}
    (h : Derives model.policy input x first last d) :
    (d.tree model first last : ParseTree S).Spells model input x first last :=
  ⟨d, h, rfl, d.weight_tree model first last⟩

theorem ParseTree.spells_leaf {rule : TerminalRule}
    (hrule : rule ∈ model.policy.terminalRules input first last) :
    (ParseTree.leaf rule (model.weigh (.terminal rule) : S) first last).Spells model input
      rule.parent first last :=
  (Derives.leaf hrule).spells_tree

theorem ParseTree.Spells.join {split : Nat} {rule : BinaryRule} {left right : ParseTree S}
    (hsplit : split < last - first)
    (hrule : rule ∈ model.policy.binaryRules first last split)
    (hleft : left.Spells model input rule.left first (first + split))
    (hright : right.Spells model input rule.right (first + split + 1) last) :
    (ParseTree.join rule (model.weigh (.binary rule)) left right).Spells model input
      rule.parent first last := by
  obtain ⟨d, hd, rfl, _⟩ := hleft
  obtain ⟨e, he, rfl, _⟩ := hright
  exact (Derives.node hsplit hrule hd he).spells_tree

theorem ParseTree.Spells.root_eq {x : Symbol} {tree : ParseTree S}
    (h : tree.Spells model input x first last) : tree.root = x := by
  obtain ⟨d, hd, rfl, _⟩ := h
  rw [Derivation.root_tree, hd.root_eq]

theorem ParseTree.Spells.span_eq {x : Symbol} {tree : ParseTree S}
    (h : tree.Spells model input x first last) : tree.first = first ∧ tree.last = last := by
  obtain ⟨d, _, rfl, _⟩ := h
  exact ⟨d.first_tree .., d.last_tree ..⟩

end Parts

/-! ## Products of rule weights -/

section Rescoring

variable [Scalar K] [ExactProducts K S] {model : Model K} {input : List Symbol}
  {x : Symbol} {first last : Nat}

/-- Looking up the rules of the tree of a derivation comes to its weight. -/
theorem Derives.ruleProduct_tree (hmodel : model.IsRead S) {d : Derivation}
    (h : Derives model.policy input x first last d) :
    model.ruleProduct (d.tree model first last : ParseTree S) =
      WeightAlgebra.toWeight (d.weight model : S) := by
  induction h with
  | leaf hrule => exact (hmodel _).symm
  | @node first last split rule left right hsplit hrule hleft hright ihLeft ihRight =>
      have hread : ({ parent := rule.parent,
                      left := (left.tree model first (first + split) : ParseTree S).root,
                      right := (right.tree model (first + split + 1) last :
                        ParseTree S).root,
                      ruleType := rule.ruleType } : BinaryRule) = rule := by
        rw [Derivation.root_tree, Derivation.root_tree, hleft.root_eq, hright.root_eq]
      calc model.ruleProduct ((Derivation.node split rule left right).tree model first last :
            ParseTree S)
          = model.ruleWeight (.binary rule) *
              model.ruleProduct (left.tree model first (first + split) : ParseTree S) *
              model.ruleProduct (right.tree model (first + split + 1) last :
                ParseTree S) := by
            rw [Derivation.tree, ParseTree.join, Model.ruleProduct, hread]
        _ = WeightAlgebra.toWeight (model.weigh (.binary rule) * left.weight model *
              right.weight model : S) := by
            rw [ihLeft, ihRight, ExactProducts.toWeight_mul, ExactProducts.toWeight_mul,
              hmodel]

/-- A tree that spells a derivation is rescored to its own probability and the weight of
its root under the prior. -/
theorem ParseTree.Spells.treeProbability_eq (hmodel : model.IsRead S) {tree : ParseTree S}
    (h : tree.Spells model input x first last) (prior : RootPrior K) :
    model.treeProbability prior tree =
      tree.probability * WeightAlgebra.toWeight (prior.weight tree.root : S) := by
  obtain ⟨d, hd, rfl, _⟩ := h
  rw [Model.treeProbability, hd.ruleProduct_tree hmodel, ParseTree.probability,
    Derivation.weight_tree]

omit [ExactProducts K S] in
theorem Model.ruleProduct_multiply (tree : ParseTree S) (factor : S) :
    model.ruleProduct (tree.multiply factor) = model.ruleProduct tree := by
  cases tree <;> rfl

/-- With the prior multiplied into its root, the tree is rescored to its probability. -/
theorem ParseTree.Spells.treeProbability_multiply (hmodel : model.IsRead S)
    {tree : ParseTree S} (h : tree.Spells model input x first last) (prior : RootPrior K) :
    model.treeProbability prior (tree.multiply (prior.weight tree.root)) =
      (tree.multiply (prior.weight tree.root)).probability := by
  have hplain := h.treeProbability_eq hmodel prior
  rw [Model.treeProbability] at hplain ⊢
  rw [Model.ruleProduct_multiply, ParseTree.root_multiply, hplain, ParseTree.probability,
    ParseTree.probability, ParseTree.weight_multiply, ExactProducts.toWeight_mul]

end Rescoring

end WeightedParsing
