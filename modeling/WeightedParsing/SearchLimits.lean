import WeightedParsing.Error

/-!
# Limits of a search

How many back-pointers a chart keeps for each entry, how many partial trees a
beam keeps for each span, and from which length on an input without a parse is
taken for one whose weights have vanished.
-/

namespace WeightedParsing

structure SearchLimits where
  treesPerEntry : Nat := 1
  beamSize : Nat := 100
  underflowLength : Nat := 50
  treesPerEntry_pos : 0 < treesPerEntry := by decide
  beamSize_pos : 0 < beamSize := by decide
deriving DecidableEq

namespace SearchLimits

/-- The limits of a parser that is given none. -/
def standard : SearchLimits := {}

instance : Inhabited SearchLimits := ⟨standard⟩

/-- Keeps this many back-pointers for each entry of a chart. -/
def withTreesPerEntry (limits : SearchLimits) (count : Nat) :
    Except UsageError SearchLimits :=
  if h : 0 < count then
    .ok { limits with treesPerEntry := count, treesPerEntry_pos := h }
  else .error .zeroTreesPerEntry

/-- Keeps this many partial trees for each span of a beam. -/
def withBeamSize (limits : SearchLimits) (count : Nat) :
    Except UsageError SearchLimits :=
  if h : 0 < count then
    .ok { limits with beamSize := count, beamSize_pos := h }
  else .error .zeroBeamSize

/-- Takes inputs of at least this length for too long if they have no parse. -/
def withUnderflowLength (limits : SearchLimits) (length : Nat) : SearchLimits :=
  { limits with underflowLength := length }

end SearchLimits

end WeightedParsing
