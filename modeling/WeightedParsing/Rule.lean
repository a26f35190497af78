import WeightedParsing.Symbol

/-!
# Rules in Chomsky normal form

A binary rule rewrites its parent to two symbols, a terminal rule to one or more
words.  Several words make one lexical entry out of a unit such as a compound.
Either may carry a rule type; rules that differ only in their type are different
rules.
-/

namespace WeightedParsing

/-- The rule `parent -> left right`. -/
structure BinaryRule where
  parent : Symbol
  left : Symbol
  right : Symbol
  ruleType : Option Symbol := none
deriving DecidableEq, Hashable, Repr

/-- The rule `parent -> "w1" ... "wk"`. -/
structure TerminalRule where
  parent : Symbol
  words : List Symbol
  ruleType : Option Symbol := none
deriving DecidableEq, Hashable, Repr

/-- A terminal rule over the given words, of which there must be one. -/
def TerminalRule.ofWords (parent : Symbol) (words : List Symbol) :
    Except UsageError TerminalRule :=
  if words.isEmpty then .error .emptyTerminalRule
  else .ok { parent, words }

inductive Rule where
  | binary (rule : BinaryRule)
  | terminal (rule : TerminalRule)
deriving DecidableEq, Hashable, Repr

namespace Rule

def parent : Rule → Symbol
  | binary rule => rule.parent
  | terminal rule => rule.parent

/-- The label that tells apart rules of equal sides. -/
def ruleType : Rule → Option Symbol
  | binary rule => rule.ruleType
  | terminal rule => rule.ruleType

def binary? : Rule → Option BinaryRule
  | binary rule => some rule
  | terminal _ => none

def terminal? : Rule → Option TerminalRule
  | binary _ => none
  | terminal rule => some rule

def isTerminal (rule : Rule) : Bool := rule.terminal?.isSome

end Rule

/-- The written form of a rule type: its name between angle brackets. -/
def typeText (symbols : SymbolTable) : Option Symbol → String
  | some ruleType => " <" ++ symbols.text ruleType ++ ">"
  | none => ""

def quotedWords (symbols : SymbolTable) (words : List Symbol) : String :=
  String.join (words.map fun word => " \"" ++ symbols.text word ++ "\"")

def BinaryRule.text (symbols : SymbolTable) (rule : BinaryRule) : String :=
  symbols.text rule.parent ++ " -> " ++ symbols.text rule.left ++ " " ++
    symbols.text rule.right ++ typeText symbols rule.ruleType

def TerminalRule.text (symbols : SymbolTable) (rule : TerminalRule) : String :=
  symbols.text rule.parent ++ " ->" ++ quotedWords symbols rule.words ++
    typeText symbols rule.ruleType

def Rule.text (symbols : SymbolTable) : Rule → String
  | binary rule => rule.text symbols
  | terminal rule => rule.text symbols

/-- The number by which rule types are sorted: no type comes first. -/
def typeRank : Option Symbol → Nat
  | none => 0
  | some ruleType => ruleType.id + 1

/-- What rules of one form are sorted by: the numbers of their symbols, and last
the type. -/
def Rule.sortKey : Rule → Nat × List Nat × Nat
  | binary rule =>
      (rule.parent.id, [rule.left.id, rule.right.id], typeRank rule.ruleType)
  | terminal rule =>
      (rule.parent.id, rule.words.map Symbol.id, typeRank rule.ruleType)

/-- Whether `a` comes no later than `b` among rules of their form. -/
def Rule.sortsBefore (a b : Rule) : Bool :=
  (compareLex (compareOn fun key => key.1)
    (compareLex (compareOn fun key => key.2.1) (compareOn fun key => key.2.2))
    a.sortKey b.sortKey).isLE

def binaryEntries {α : Type} (entries : List (Rule × α)) : List (Rule × α) :=
  entries.filter fun entry => !entry.1.isTerminal

def terminalEntries {α : Type} (entries : List (Rule × α)) : List (Rule × α) :=
  entries.filter fun entry => entry.1.isTerminal

def sortByRule {α : Type} (entries : List (Rule × α)) : List (Rule × α) :=
  entries.mergeSort fun a b => a.1.sortsBefore b.1

end WeightedParsing
