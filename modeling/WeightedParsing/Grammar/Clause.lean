import WeightedParsing.Grammar.Policy

/-!
# Clauses that drop rules

A clause states conditions on a binary rule and on the place where it would be
used, and drops the rule where all of them hold.  Conditions that are not stated
hold everywhere.
-/

namespace WeightedParsing

structure DropClause where
  parent : Option Symbol
  left : Option Symbol
  right : Option Symbol
  /-- The rule type, where `some none` asks for a rule without one. -/
  ruleType : Option (Option Symbol)
  first : Option Nat
  last : Option Nat
  split : Option Nat
  /-- The least number of terminals of the span. -/
  minLength : Option Nat

/-- Whether a condition, if it is stated, asks for the value found. -/
def agrees {α : Type} [DecidableEq α] (wanted : Option α) (found : α) : Bool :=
  wanted.all fun value => value = found

def DropClause.drops (clause : DropClause) (first last split : Nat)
    (rule : BinaryRule) : Bool :=
  agrees clause.parent rule.parent && agrees clause.left rule.left &&
    agrees clause.right rule.right && agrees clause.ruleType rule.ruleType &&
    agrees clause.first first && agrees clause.last last &&
    agrees clause.split split &&
    clause.minLength.all fun length => first + length ≤ last + 1

def Policy.dropping (clauses : List DropClause) (policy : Policy) : Policy :=
  policy.restrict fun first last split rule =>
    !clauses.any fun clause => clause.drops first last split rule

end WeightedParsing
