import WeightedParsing.Grammar.Weights

/-!
# Rules as they are written

A written rule names its symbols.  It becomes a rule of a grammar once its names
are interned and its right-hand side turns out to be two symbols or one or more
quoted words.  `GrammarError` lists what can be wrong with a text.
-/

namespace WeightedParsing

inductive RightItem where
  | symbol (name : String)
  | word (name : String)
deriving DecidableEq, Repr

def RightItem.symbol? : RightItem → Option String
  | symbol name => some name
  | word _ => none

def RightItem.word? : RightItem → Option String
  | symbol _ => none
  | word name => some name

structure RuleSpec (K : Type) [Scalar K] where
  parent : String
  right : List RightItem
  ruleType : Option String
  weight : RuleWeight K

/-- What is wrong with the text of a grammar.  The causes that arise at a place
of the text hold what is left of it there. -/
inductive GrammarError where
  | noRules
  | badParent (rest : List Char)
  | missingArrow (rest : List Char)
  | badWord (rest : List Char)
  | emptyRightSide (parent : String)
  | badRuleType (rest : List Char)
  | openRuleType (rest : List Char)
  | badWeight (parent : String) (rest : List Char)
  | infiniteWeight (parent : String) (number : List Char)
  | missingSemicolon (parent : String) (rest : List Char)
  | wrongArity (parent : String) (count : Nat)
  | mixedRightSide (parent : String)
deriving DecidableEq, Repr

/-- The text that says that `wanted` does not stand at a place. -/
def notFound (wanted : String) (rest : List Char) : String :=
  "couldn't match " ++ wanted ++ " at " ++ String.ofList rest

/-- The pattern of names, as messages show it. -/
def namePattern : String := "[a-zA-Z0-9\\-_]+"

/-- The pattern of quoted words, as messages show it. -/
def wordPattern : String := "^\"[^\"\\s]+\""

/-- The pattern of weights, as messages show it. -/
def weightPattern : String := "[0-9]*\\.?[0-9]+([eE][-+]?[0-9]+)?"

def GrammarError.message : GrammarError → String
  | noRules => "empty ruleset"
  | badParent rest => "rule symbol: name: " ++ notFound namePattern rest
  | missingArrow rest => "rule arrow: " ++ notFound "->" rest
  | badWord rest => "terminal: " ++ notFound wordPattern rest
  | emptyRightSide parent =>
      "rule for " ++ parent ++ " has an empty right-hand side"
  | badRuleType rest => "rule type: name: " ++ notFound namePattern rest
  | openRuleType rest => notFound ">" rest
  | badWeight parent rest =>
      "rule for " ++ parent ++ ": weight: " ++ notFound weightPattern rest
  | infiniteWeight parent number =>
      "rule for " ++ parent ++ ": weight must be finite: " ++
        String.ofList number
  | missingSemicolon parent rest =>
      "rule for " ++ parent ++ ": " ++ notFound ";" rest
  | wrongArity parent count =>
      "rule for " ++ parent ++ " needs exactly two nonterminals, got " ++
        toString count
  | mixedRightSide parent =>
      "rule for " ++ parent ++ " mixes terminals and nonterminals"

end WeightedParsing
