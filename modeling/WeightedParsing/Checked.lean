import WeightedParsing.Chart.SpanTable
import WeightedParsing.Error

/-!
# Computing with checks

Reading beyond a table gives a blank value, and a difference that would be negative is
zero.  A checked computation stops there instead, with the fault that it met.
-/

namespace WeightedParsing

/-- What a checked computation stops at. -/
inductive Fault where
  | outOfRange (first last size : Nat)
  | missingRow (width rows : Nat)
  | underflow (minuend subtrahend : Nat)
  | misuse (error : UsageError)
  /-- A back-pointer that does not split its span. -/
  | runaway (split first last : Nat)
deriving DecidableEq, Repr

abbrev Checked := Except Fault

namespace Checked

variable {α β : Type}

def sub (minuend subtrahend : Nat) : Checked Nat :=
  if subtrahend ≤ minuend then .ok (minuend - subtrahend)
  else .error (.underflow minuend subtrahend)

def getAt (items : Array α) (i : Nat) : Checked α :=
  if h : i < items.size then .ok items[i]
  else .error (.outOfRange i i items.size)

/-- The lists for all entries of a list, one after the other. -/
def gather (f : α → Checked (List β)) (entries : List α) : Checked (List β) := do
  return (← entries.mapM f).flatten

end Checked

namespace SpanTable

variable {α : Type}

/-- Looks up a span, which has to lie within the table. -/
def read (table : SpanTable α) (first last : Nat) : Checked α :=
  if first ≤ last ∧ last < table.size then .ok (table.get first last)
  else .error (.outOfRange first last table.size)

/-- Fills the cells of one width, which the table has to have a row for. -/
def writeWidth (table : SpanTable α) (width : Nat) (row : List α) : Checked (SpanTable α) :=
  if width < table.rows.size then
    .ok { table with rows := table.rows.setIfInBounds width row.toArray }
  else .error (.missingRow width table.rows.size)

end SpanTable

namespace Checked

variable {α : Type}

/-- Fills the cells of one width by looking into those that are filled. -/
def fillWidth (cell : ((first last : Nat) → Checked α) → (first last : Nat) → Checked α)
    (table : SpanTable α) (width : Nat) : Checked (SpanTable α) := do
  let firsts ← sub table.size width
  let row ← (List.range firsts).mapM fun first => cell table.read first (first + width)
  table.writeWidth width row

/-- Fills a table width by width, in the order of the list. -/
def sweep (size : Nat) (blank : α)
    (cell : ((first last : Nat) → Checked α) → (first last : Nat) → Checked α)
    (widths : List Nat) : Checked (SpanTable α) :=
  widths.foldlM (fillWidth cell) (SpanTable.empty size blank)

end Checked

end WeightedParsing
