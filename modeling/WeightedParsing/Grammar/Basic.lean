import Std.Data.HashMap.Lemmas
import Std.Data.HashSet
import WeightedParsing.Rule

/-!
# Grammars

A grammar lists its binary and its terminal rules in the order in which they
were first added; adding a rule again changes nothing.  Indexes by parent, by
children and by word sequence hold positions in these lists and spare callers a
scan over all rules.
-/

namespace WeightedParsing

/-- Positions in a list of `size` rules by a key, in the order of insertion. -/
structure RuleIndex (κ : Type) [BEq κ] [Hashable κ] (size : Nat) where
  positions : Std.HashMap κ (Array Nat)
  in_range : ∀ key, ∀ i ∈ positions.getD key #[], i < size

namespace RuleIndex

variable {κ ρ : Type} [BEq κ] [Hashable κ] {size larger : Nat}

def empty : RuleIndex κ size := ⟨∅, by simp⟩

/-- The index once a rule with the given key is put behind the rules. -/
def add [LawfulBEq κ] (index : RuleIndex κ size) (key : κ)
    (hlarger : larger = size + 1) : RuleIndex κ larger where
  positions :=
    index.positions.alter key fun positions =>
      some ((positions.getD #[]).push size)
  in_range := by
    intro k i hi
    rw [Std.HashMap.getD_alter] at hi
    split at hi
    · rw [Option.getD_some, ← Std.HashMap.getD_eq_getD_getElem?] at hi
      rcases Array.mem_push.mp hi with hold | rfl
      · have := index.in_range key i hold
        omega
      · omega
    · have := index.in_range k i hi
      omega

/-- The rules at the positions of a key. -/
def find (rules : Array ρ) (index : RuleIndex κ rules.size) (key : κ) : List ρ :=
  (index.positions.getD key #[]).attach.toList.map fun ⟨i, hi⟩ =>
    have := index.in_range key i hi
    rules[i]

end RuleIndex

structure Grammar where
  binary : Array BinaryRule
  binarySeen : Std.HashSet BinaryRule
  binaryByParent : RuleIndex Symbol binary.size
  binaryByChildren : RuleIndex (Symbol × Symbol) binary.size
  terminal : Array TerminalRule
  terminalSeen : Std.HashSet TerminalRule
  terminalByParent : RuleIndex Symbol terminal.size
  terminalByWords : RuleIndex (List Symbol) terminal.size
  /-- The most words that a terminal rule produces. -/
  maxTerminalLength : Nat

namespace Grammar

def empty : Grammar where
  binary := #[]
  binarySeen := ∅
  binaryByParent := .empty
  binaryByChildren := .empty
  terminal := #[]
  terminalSeen := ∅
  terminalByParent := .empty
  terminalByWords := .empty
  maxTerminalLength := 0

instance : Inhabited Grammar := ⟨empty⟩

def addBinary (grammar : Grammar) (rule : BinaryRule) : Grammar :=
  if grammar.binarySeen.contains rule then grammar
  else
    { grammar with
      binary := grammar.binary.push rule
      binarySeen := grammar.binarySeen.insert rule
      binaryByParent :=
        grammar.binaryByParent.add rule.parent (Array.size_push _)
      binaryByChildren :=
        grammar.binaryByChildren.add (rule.left, rule.right) (Array.size_push _) }

def addTerminal (grammar : Grammar) (rule : TerminalRule) : Grammar :=
  if grammar.terminalSeen.contains rule then grammar
  else
    { grammar with
      terminal := grammar.terminal.push rule
      terminalSeen := grammar.terminalSeen.insert rule
      terminalByParent :=
        grammar.terminalByParent.add rule.parent (Array.size_push _)
      terminalByWords :=
        grammar.terminalByWords.add rule.words (Array.size_push _)
      maxTerminalLength := max grammar.maxTerminalLength rule.words.length }

/-- Adds a rule unless the grammar has it. -/
def add (grammar : Grammar) : Rule → Grammar
  | .binary rule => grammar.addBinary rule
  | .terminal rule => grammar.addTerminal rule

def binaryRules (grammar : Grammar) : List BinaryRule := grammar.binary.toList

def terminalRules (grammar : Grammar) : List TerminalRule :=
  grammar.terminal.toList

def binaryRulesForParent (grammar : Grammar) (parent : Symbol) :
    List BinaryRule :=
  grammar.binaryByParent.find grammar.binary parent

def binaryRulesForChildren (grammar : Grammar) (left right : Symbol) :
    List BinaryRule :=
  grammar.binaryByChildren.find grammar.binary (left, right)

def terminalRulesForParent (grammar : Grammar) (parent : Symbol) :
    List TerminalRule :=
  grammar.terminalByParent.find grammar.terminal parent

def terminalRulesForWords (grammar : Grammar) (words : List Symbol) :
    List TerminalRule :=
  grammar.terminalByWords.find grammar.terminal words

def nonterminals (grammar : Grammar) : List Symbol :=
  Symbol.sortDistinct
    (grammar.binaryByParent.positions.keys ++
      grammar.terminalByParent.positions.keys)

def size (grammar : Grammar) : Nat :=
  grammar.binary.size + grammar.terminal.size

def text (symbols : SymbolTable) (grammar : Grammar) : String :=
  String.join
    (grammar.binaryRules.map (fun rule => rule.text symbols ++ ";\n") ++
      grammar.terminalRules.map (fun rule => rule.text symbols ++ ";\n"))

end Grammar

end WeightedParsing
