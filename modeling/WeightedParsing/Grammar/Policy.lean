import WeightedParsing.Grammar.Basic

/-!
# Policies

A policy says which rules a parser may use where.  Parsers make up no rules, so
a policy that leaves some out makes results approximate and never wrong.  Spans
are inclusive, and a split is the offset of the left child's last terminal from
the start of the span.
-/

namespace WeightedParsing

structure Policy where
  /-- The binary rules for a span and a split. -/
  binaryRules : (first last split : Nat) → List BinaryRule
  /-- The terminal rules that produce exactly a span of the input. -/
  terminalRules : (input : List Symbol) → (first last : Nat) → List TerminalRule
  allTerminalRules : List TerminalRule
  /-- No span of more terminals is looked up among the terminal rules. -/
  maxTerminalLength : Nat

/-- The terminals of an inclusive span, if it lies within the input. -/
def inputSlice (input : List Symbol) (first last : Nat) : Option (List Symbol) :=
  if first ≤ last && last < input.length then
    some ((input.drop first).take (last + 1 - first))
  else none

/-- The policy that allows every rule of a grammar everywhere. -/
def Grammar.policy (grammar : Grammar) : Policy :=
  let binary := grammar.binaryRules
  { binaryRules := fun _ _ _ => binary
    terminalRules := fun input first last =>
      match inputSlice input first last with
      | some words => grammar.terminalRulesForWords words
      | none => []
    allTerminalRules := grammar.terminalRules
    maxTerminalLength := grammar.maxTerminalLength }

namespace Policy

/-- Keeps of the binary rules those that `keep` allows at a span and a split. -/
def restrict (keep : (first last split : Nat) → BinaryRule → Bool)
    (policy : Policy) : Policy :=
  { policy with
    binaryRules := fun first last split =>
      (policy.binaryRules first last split).filter (keep first last split) }

def longestTerminalRule (policy : Policy) : Nat :=
  policy.allTerminalRules.foldl (fun longest rule => max longest rule.words.length) 0

/-- Looks the greatest length of a terminal rule up among the rules. -/
def scanLength (policy : Policy) : Policy :=
  { policy with maxTerminalLength := policy.longestTerminalRule }

/-- The terminal rules for a span, if rules of its length are looked up. -/
def lexicalRules (policy : Policy) (input : List Symbol) (first last : Nat) :
    List TerminalRule :=
  if last + 1 - first ≤ policy.maxTerminalLength then
    policy.terminalRules input first last
  else []

end Policy

end WeightedParsing
