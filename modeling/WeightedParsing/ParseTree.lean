import WeightedParsing.Rule
import WeightedParsing.Text.Lines
import WeightedParsing.Weight.Algebra

/-!
# Parse trees

A leaf applies a terminal rule to a span of the input, a node joins two trees
over adjacent spans.  The weight of a node is that of its rule times those of
its subtrees; a prior over roots may be multiplied into the root alone.  Spans
are given by the positions of their first and last terminals.
-/

namespace WeightedParsing

/-- A derivation, every part of which has a weight. -/
inductive ParseTree (S : Type) where
  | leaf (rule : TerminalRule) (weight : S) (first last : Nat)
  | node (parent : Symbol) (ruleType : Option Symbol)
      (left right : ParseTree S) (weight : S)

namespace ParseTree

variable {K S : Type}

def root : ParseTree S → Symbol
  | leaf rule _ _ _ => rule.parent
  | node parent _ _ _ _ => parent

def ruleType : ParseTree S → Option Symbol
  | leaf rule _ _ _ => rule.ruleType
  | node _ ruleType _ _ _ => ruleType

def weight : ParseTree S → S
  | leaf _ weight _ _ => weight
  | node _ _ _ _ weight => weight

def first : ParseTree S → Nat
  | leaf _ _ first _ => first
  | node _ _ left _ _ => left.first

def last : ParseTree S → Nat
  | leaf _ _ _ last => last
  | node _ _ _ right _ => right.last

def isLeaf : ParseTree S → Bool
  | leaf .. => true
  | node .. => false

def children? : ParseTree S → Option (ParseTree S × ParseTree S)
  | leaf .. => none
  | node _ _ left right _ => some (left, right)

inductive Turn where
  | left
  | right
deriving DecidableEq, Repr

/-- The subtree that a path leads to, unless it leads past a leaf. -/
def subtree? : List Turn → ParseTree S → Option (ParseTree S)
  | [], tree => some tree
  | _ :: _, leaf .. => none
  | .left :: path, node _ _ left _ _ => left.subtree? path
  | .right :: path, node _ _ _ right _ => right.subtree? path

/-- The rule at the root; that of a node is read off the roots of its subtrees. -/
def rule : ParseTree S → Rule
  | leaf rule _ _ _ => .terminal rule
  | node parent ruleType left right _ =>
      .binary { parent, left := left.root, right := right.root, ruleType }

def terminals : ParseTree S → List Symbol
  | leaf rule _ _ _ => rule.words
  | node _ _ left right _ => left.terminals ++ right.terminals

def probability [WeightAlgebra K S] (tree : ParseTree S) : K :=
  WeightAlgebra.toWeight tree.weight

/-- The node that applies a rule of the given weight to two trees. -/
def join [WeightAlgebra K S] (rule : BinaryRule) (ruleWeight : S)
    (left right : ParseTree S) : ParseTree S :=
  node rule.parent rule.ruleType left right
    (ruleWeight * left.weight * right.weight)

/-- The node over two trees, refused if their spans do not meet. -/
def joinAdjacent [WeightAlgebra K S] (rule : BinaryRule) (ruleWeight : S)
    (left right : ParseTree S) : Except UsageError (ParseTree S) :=
  if left.last + 1 = right.first then .ok (join rule ruleWeight left right)
  else .error .gapBetweenSubtrees

/-- Multiplies the weight of the root, and of no subtree, by a factor. -/
def multiply [WeightAlgebra K S] (factor : S) : ParseTree S → ParseTree S
  | leaf rule weight first last => leaf rule (weight * factor) first last
  | node parent ruleType left right weight =>
      node parent ruleType left right (weight * factor)

/-- The lines of a text, each on a new line and two places further in. -/
def indentLines (text : String) : String :=
  String.join ((Text.lines text).map fun line => "\n  " ++ line)

def text (symbols : SymbolTable) : ParseTree S → String
  | leaf rule _ _ _ =>
      "(" ++ symbols.text rule.parent ++ quotedWords symbols rule.words ++ ")"
  | node parent _ left right _ =>
      "(" ++ symbols.text parent ++ indentLines (left.text symbols) ++
        indentLines (right.text symbols) ++ ")"

end ParseTree

end WeightedParsing
