import WeightedParsing.Grammar.Basic
import WeightedParsing.Grammar.Text

/-!
# Weighted grammars

A grammar together with the table that names its symbols and the weights of its
rules.  Reading a text adds its rules in order, so symbols are numbered by first
occurrence and a rule that is written twice keeps its last weight.
-/

namespace WeightedParsing

/-- A grammar with the names of its symbols and the weights of its rules. -/
structure WeightedGrammar (K : Type) [Scalar K] where
  symbols : SymbolTable
  grammar : Grammar
  weights : RuleWeights K

namespace WeightedGrammar

variable {K : Type} [Scalar K]

def empty : WeightedGrammar K := ⟨.empty, .empty, .empty⟩

instance : Inhabited (WeightedGrammar K) := ⟨empty⟩

/-- Adds a rule that is given by symbols, and sets its weight. -/
def addRule (weighted : WeightedGrammar K) (rule : Rule) (weight : RuleWeight K) :
    WeightedGrammar K :=
  { weighted with
    grammar := weighted.grammar.add rule
    weights := weighted.weights.set rule weight }

def internOption : Option String → SymbolTable → Option Symbol × SymbolTable
  | none, table => (none, table)
  | some name, table =>
      let (symbol, table) := table.intern name
      (some symbol, table)

/-- The rule of a written rule and the table with its names: first those of the
parent and the type, then those of the right-hand side from left to right. -/
def resolve (symbols : SymbolTable) (spec : RuleSpec K) :
    Except GrammarError (Rule × SymbolTable) :=
  let (parent, symbols) := symbols.intern spec.parent
  let (ruleType, symbols) := internOption spec.ruleType symbols
  match spec.right.mapM RightItem.word?, spec.right.mapM RightItem.symbol? with
  | some words, _ =>
      let (words, symbols) := SymbolTable.internList words symbols
      .ok (.terminal { parent, words, ruleType }, symbols)
  | none, some [left, right] =>
      let (left, symbols) := symbols.intern left
      let (right, symbols) := symbols.intern right
      .ok (.binary { parent, left, right, ruleType }, symbols)
  | none, some names => .error (.wrongArity spec.parent names.length)
  | none, none => .error (.mixedRightSide spec.parent)

def addSpec (weighted : WeightedGrammar K) (spec : RuleSpec K) :
    Except GrammarError (WeightedGrammar K) := do
  let (rule, symbols) ← resolve weighted.symbols spec
  return { weighted with symbols }.addRule rule spec.weight

def ofSpecs (specs : List (RuleSpec K)) :
    Except GrammarError (WeightedGrammar K) :=
  specs.foldlM addSpec empty

def ofText (text : String) : Except GrammarError (WeightedGrammar Float) := do
  let specs ← GrammarText.scanRules text.toList
  if specs.isEmpty then .error .noRules else ofSpecs specs

def tokenize (weighted : WeightedGrammar K) (sentence : String) :
    List Symbol × WeightedGrammar K :=
  let (words, symbols) := weighted.symbols.internWords sentence
  (words, { weighted with symbols })

end WeightedGrammar

end WeightedParsing
