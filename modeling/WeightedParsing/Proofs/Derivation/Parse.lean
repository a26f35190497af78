import WeightedParsing.Proofs.Derivation.Tree

/-!
# Trees that obey a policy

What can be checked of a tree without knowing how it was found: every leaf applies a
terminal rule that the policy allows for its span, every node a binary rule that the
policy allows at its span and its split, and every part weighs what its rule and its own
children weigh together.  The tree of a derivation passes this check and reads the span
that it is over.
-/

namespace WeightedParsing

variable {K S : Type}

namespace ParseTree

/-- A property of a tree and of all its subtrees. -/
def EveryPart (p : ParseTree S → Prop) (tree : ParseTree S) : Prop :=
  ∀ path part, tree.subtree? path = some part → p part

theorem everyPart_leaf {p : ParseTree S → Prop} {rule : TerminalRule} {weight : S}
    {first last : Nat} (h : p (leaf rule weight first last)) :
    (leaf rule weight first last).EveryPart p := by
  intro path part hpart
  cases path with
  | nil =>
      rw [← Option.some.inj hpart]
      exact h
  | cons turn path => cases hpart

theorem everyPart_node {p : ParseTree S → Prop} {parent : Symbol}
    {ruleType : Option Symbol} {left right : ParseTree S} {weight : S}
    (h : p (node parent ruleType left right weight)) (hleft : left.EveryPart p)
    (hright : right.EveryPart p) :
    (node parent ruleType left right weight).EveryPart p := by
  intro path part hpart
  cases path with
  | nil =>
      rw [← Option.some.inj hpart]
      exact h
  | cons turn path =>
      cases turn with
      | left => exact hleft path part hpart
      | right => exact hright path part hpart

/-- The root of the tree applies a rule that the policy allows there, and weighs as much
as that rule and the children together.  The rule of a node is read off the roots of its
children, whose spans meet. -/
def AppliesRule [WeightAlgebra K S] (model : Model K) (input : List Symbol)
    (tree : ParseTree S) : Prop :=
  match tree.children? with
  | none =>
      ∃ rule ∈ model.policy.terminalRules input tree.first tree.last,
        tree.rule = .terminal rule ∧ tree.weight = model.weigh (.terminal rule)
  | some (left, right) =>
      ∃ split, left.last = tree.first + split ∧ left.last + 1 = right.first ∧
        ∃ rule ∈ model.policy.binaryRules tree.first tree.last split,
          tree.rule = .binary rule ∧
            tree.weight = model.weigh (.binary rule) * left.weight * right.weight

end ParseTree

variable [WeightAlgebra K S]

/-- The tree parses a span of the input as a symbol: it reads the span, and every part
of it applies a rule that the policy allows there. -/
structure IsParse (model : Model K) (input : List Symbol) (x : Symbol)
    (first last : Nat) (tree : ParseTree S) : Prop where
  root_eq : tree.root = x
  first_eq : tree.first = first
  last_eq : tree.last = last
  terminals_eq : inputSlice input first last = some tree.terminals
  applies : tree.EveryPart (ParseTree.AppliesRule model input)

theorem inputSlice_append {input words others : List Symbol} {first middle last : Nat}
    (hleft : inputSlice input first middle = some words)
    (hright : inputSlice input (middle + 1) last = some others) :
    inputSlice input first last = some (words ++ others) := by
  unfold inputSlice at hleft hright ⊢
  simp only [Bool.and_eq_true, decide_eq_true_eq, Option.ite_none_right_eq_some,
    Option.some.injEq] at hleft hright ⊢
  obtain ⟨⟨hfirst, _⟩, rfl⟩ := hleft
  obtain ⟨⟨hmiddle, hlast⟩, rfl⟩ := hright
  refine ⟨⟨by omega, hlast⟩, ?_⟩
  have hwidth : last + 1 - first = (middle + 1 - first) + (last + 1 - (middle + 1)) := by
    omega
  have hstart : first + (middle + 1 - first) = middle + 1 := by omega
  rw [hwidth, List.take_add, List.drop_drop, hstart]

theorem Derives.inputSlice_terminals {policy : Policy} (hpolicy : policy.Lawful)
    {input : List Symbol} {x : Symbol} {first last : Nat} {d : Derivation}
    (model : Model K) (h : Derives policy input x first last d) (hspan : first ≤ last)
    (hlast : last < input.length) :
    inputSlice input first last =
      some (d.tree model first last : ParseTree S).terminals := by
  induction h with
  | leaf hrule => exact hpolicy.terminal_exact _ _ _ hspan hlast _ hrule
  | node hsplit hrule _ _ ihLeft ihRight =>
      exact inputSlice_append (ihLeft (by omega) (by omega)) (ihRight (by omega) hlast)

/-- The rule that is read off the tree of a derivation is the one at its top. -/
theorem Derives.rule_tree {policy : Policy} {input : List Symbol} {x : Symbol}
    {first last : Nat} {d : Derivation} (model : Model K)
    (h : Derives policy input x first last d) :
    (d.tree model first last : ParseTree S).rule = d.rule := by
  cases h with
  | leaf hrule => rfl
  | node hsplit hrule hleft hright =>
      simp [Derivation.tree, ParseTree.join, ParseTree.rule, Derivation.rule,
        hleft.root_eq, hright.root_eq]

theorem Derives.everyPart_appliesRule {model : Model K} {input : List Symbol}
    {x : Symbol} {first last : Nat} {d : Derivation}
    (h : Derives model.policy input x first last d) :
    (d.tree model first last : ParseTree S).EveryPart
      (ParseTree.AppliesRule model input) := by
  induction h with
  | leaf hrule => exact ParseTree.everyPart_leaf ⟨_, hrule, rfl, rfl⟩
  | @node first last split rule left right hsplit hrule hleft hright ihLeft ihRight =>
      refine ParseTree.everyPart_node ?_ ihLeft ihRight
      refine ⟨split, ?_, ?_, rule, ?_, ?_, rfl⟩
      · simp [ParseTree.first]
      · simp
      · simpa [Derivation.tree, ParseTree.join, ParseTree.first, ParseTree.last]
          using hrule
      · exact (Derives.node hsplit hrule hleft hright).rule_tree model

theorem Derives.isParse {model : Model K} (hpolicy : model.policy.Lawful)
    {input : List Symbol} {x : Symbol} {first last : Nat} {d : Derivation}
    (h : Derives model.policy input x first last d) (hspan : first ≤ last)
    (hlast : last < input.length) :
    IsParse model input x first last (d.tree model first last : ParseTree S) where
  root_eq := by rw [Derivation.root_tree, h.root_eq]
  first_eq := Derivation.first_tree model d first last
  last_eq := Derivation.last_tree model d first last
  terminals_eq := h.inputSlice_terminals hpolicy model hspan hlast
  applies := h.everyPart_appliesRule

end WeightedParsing
