import Std.Data.HashMap
import WeightedParsing.Counts.Expected
import WeightedParsing.Decimal.Rounding
import WeightedParsing.Grammar.Basic

/-!
# Conditional probability tables

For every parent symbol a table gives its rules probabilities that are estimated
from counts: the count of the rule over the count of its parent.  No parameter
is shared between rules.  A new table counts every rule of its grammar once.
-/

namespace WeightedParsing

variable {K : Type} [Scalar K]

/-- Counts of rules and of their parents, over the rules of a grammar. -/
structure ConditionalTable (K : Type) where
  binaryByParent : OrderedTable Symbol (List BinaryRule)
  terminalByParent : OrderedTable Symbol (List TerminalRule)
  parentCounts : Std.HashMap Symbol K
  ruleCounts : Std.HashMap Rule K

namespace ConditionalTable

/-- The rules of a list, grouped by what they have under `key`. -/
def groupBy {ρ : Type} (key : ρ → Symbol) (rules : List ρ) :
    OrderedTable Symbol (List ρ) :=
  rules.foldl
    (fun groups rule => groups.update (key rule) fun old => old.getD [] ++ [rule])
    .empty

def countParent (table : ConditionalTable K) (parent : Symbol) (amount : K) :
    ConditionalTable K :=
  { table with
    parentCounts :=
      table.parentCounts.alter parent fun old => some (old.getD 0 + amount) }

/-- Adds an amount to the count of a rule, but not to that of its parent. -/
def countRule (table : ConditionalTable K) (rule : Rule) (amount : K) :
    ConditionalTable K :=
  { table with
    ruleCounts :=
      table.ruleCounts.alter rule fun old => some (old.getD 0 + amount) }

/-- Adds an amount for each rule of a group that share a parent. -/
def smoothGroup (amount : K) (table : ConditionalTable K) (parent : Symbol)
    (rules : List Rule) : ConditionalTable K :=
  rules.foldl (fun table rule => table.countRule rule amount)
    (table.countParent parent (amount * (rules.length : K)))

def smooth (table : ConditionalTable K) (amount : K) : ConditionalTable K :=
  let binaryDone := table.binaryByParent.entries.foldl
    (fun done group =>
      smoothGroup amount done group.1 (group.2.map Rule.binary)) table
  table.terminalByParent.entries.foldl
    (fun done group =>
      smoothGroup amount done group.1 (group.2.map Rule.terminal)) binaryDone

/-- The table of a grammar in which the rules of a parent are equally likely. -/
def ofGrammar (grammar : Grammar) : ConditionalTable K :=
  smooth
    { binaryByParent := groupBy BinaryRule.parent grammar.binaryRules
      terminalByParent := groupBy TerminalRule.parent grammar.terminalRules
      parentCounts := ∅
      ruleCounts := ∅ } 1

def clear (table : ConditionalTable K) : ConditionalTable K :=
  { table with
    parentCounts := table.parentCounts.map fun _ _ => 0
    ruleCounts := table.ruleCounts.map fun _ _ => 0 }

/-- Adds an amount to the count of a rule and to that of its parent. -/
def countUse (table : ConditionalTable K) (rule : Rule) (amount : K) :
    ConditionalTable K :=
  (table.countParent rule.parent amount).countRule rule amount

/-- Adds expected counts times a factor: first those of binary rules. -/
def increment (table : ConditionalTable K) (counts : ExpectedCounts K)
    (factor : K) : ConditionalTable K :=
  (binaryEntries counts.entries ++ terminalEntries counts.entries).foldl
    (fun table entry => table.countUse entry.1 (factor * entry.2)) table

/-- The probability of a rule given its parent.  It is zero for a rule without a
count, and for a parent whose count is not positive. -/
def probability (table : ConditionalTable K) (rule : Rule) : K :=
  match table.ruleCounts[rule]?, table.parentCounts[rule.parent]? with
  | some count, some total => if Ranked.lt 0 total then count / total else 0
  | _, _ => 0

def parents (table : ConditionalTable K) : List Symbol :=
  Symbol.sortDistinct (table.binaryByParent.keys ++ table.terminalByParent.keys)

/-- The rules of a parent: first the binary ones. -/
def rulesOf (table : ConditionalTable K) (parent : Symbol) : List Rule :=
  ((table.binaryByParent.get? parent).getD []).map Rule.binary ++
    ((table.terminalByParent.get? parent).getD []).map Rule.terminal

def probabilityFormat : Decimal.FixedFormat := ⟨4, true, "NaN"⟩

def text (symbols : SymbolTable) (table : ConditionalTable Float) : String :=
  String.join (table.parents.flatMap fun parent =>
    (table.rulesOf parent).map fun rule =>
      probabilityFormat.text (table.probability rule) ++ " : " ++
        rule.text symbols ++ "\n")

end ConditionalTable

end WeightedParsing
