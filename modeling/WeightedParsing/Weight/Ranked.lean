/-!
# Weights that can be compared

A ranked type has a strict and a weak comparison, both decided.  Nothing more is
asked of them, so that numbers with a value that compares with nothing fit in.
The sort of this file is stable and takes incomparable weights for equal.  Taking
them for equal need not make a ranking of the weights, and then a long list is
not fit to be sorted.
-/

namespace WeightedParsing

/-- A type with decided comparisons. -/
class Ranked (W : Type) where
  lt : W → W → Bool
  le : W → W → Bool

namespace Ranked

variable {W α : Type} [Ranked W]

/-- How two weights compare, if they do. -/
def compare? (a b : W) : Option Ordering :=
  match le a b, le b a with
  | true, true => some .eq
  | true, false => some .lt
  | false, true => some .gt
  | false, false => none

/-- The larger of two weights.  A weight that does not compare with itself gives
way to the other one. -/
def larger (a b : W) : W :=
  if le a a then if lt a b then b else a else b

/-- Puts `x` into a list held in reverse, behind every later entry that weighs
less than it. -/
def insertReversed (weight : α → W) (x : α) : List α → List α
  | [] => [x]
  | y :: rest =>
      if lt (weight y) (weight x) then y :: insertReversed weight x rest
      else x :: y :: rest

/-- The list with its heaviest entries first.  Entries of equal weight, or of
weights that do not compare, keep their order.  This is what sorting gives if the
list is `Sortable`. -/
def sortDescending (weight : α → W) (entries : List α) : List α :=
  (entries.foldl (fun sorted x => insertReversed weight x sorted) []).reverse

/-- The longest list that is sorted by putting in one entry after the other. -/
def insertionLimit : Nat := 20

/-- The weights of a list make a ranking: no two entries weigh less than each other,
and if one weighs less than another, every third one weighs more than the first or
less than the second. -/
def RanksAll (weight : α → W) (entries : List α) : Prop :=
  (∀ x ∈ entries, ∀ y ∈ entries,
      lt (weight x) (weight y) = true → lt (weight y) (weight x) = false) ∧
    ∀ x ∈ entries, ∀ y ∈ entries, ∀ z ∈ entries, lt (weight x) (weight z) = true →
      lt (weight x) (weight y) = true ∨ lt (weight y) (weight z) = true

instance (weight : α → W) (entries : List α) : Decidable (RanksAll weight entries) :=
  inferInstanceAs (Decidable (_ ∧ _))

/-- Whether a list is fit to be sorted.  A long list is sorted in parts; where the
merge of the parts finds no ranking of the entries, it breaks off, or it leaves
them in some order. -/
def Sortable (weight : α → W) (entries : List α) : Prop :=
  entries.length ≤ insertionLimit ∨ RanksAll weight entries

instance (weight : α → W) (entries : List α) : Decidable (Sortable weight entries) :=
  inferInstanceAs (Decidable (_ ∨ _))

end Ranked

instance : Ranked Float where
  lt a b := decide (a < b)
  le a b := decide (a ≤ b)

end WeightedParsing
