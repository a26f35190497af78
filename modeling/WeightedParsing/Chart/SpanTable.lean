/-!
# Tables over spans

A value for every inclusive span of an input.  A table is filled by widths: the
cells of one width are computed together from the cells of the widths before it.
Cells that were not filled hold a blank value.
-/

namespace WeightedParsing

variable {α β : Type}

/-- A value for every span `first ≤ last < size`. -/
structure SpanTable (α : Type) where
  size : Nat
  blank : α
  rows : Array (Array α)

namespace SpanTable

def empty (size : Nat) (blank : α) : SpanTable α :=
  ⟨size, blank, Array.replicate size #[]⟩

def get (table : SpanTable α) (first last : Nat) : α :=
  if first ≤ last then
    (table.rows.getD (last - first) #[]).getD first table.blank
  else table.blank

/-- Fills the cells of spans `(first, first + width)` with `f first`. -/
def fillWidth (table : SpanTable α) (width : Nat) (f : Nat → α) : SpanTable α :=
  { table with
    rows :=
      table.rows.setIfInBounds width
        (Array.ofFn fun first : Fin (table.size - width) => f first) }

/-- Fills a table width by width, in the order of the list.  `cell` computes a
value from a look-up into the widths that were filled before. -/
def sweep (size : Nat) (blank : α)
    (cell : (Nat → Nat → α) → (first last : Nat) → α) (widths : List Nat) :
    SpanTable α :=
  widths.foldl
    (fun table width =>
      table.fillWidth width fun first => cell table.get first (first + width))
    (empty size blank)

def mapSpans (table : SpanTable α) (blank : β) (f : (first last : Nat) → α → β) :
    SpanTable β :=
  sweep table.size blank
    (fun _ first last => f first last (table.get first last))
    (List.range table.size)

end SpanTable

/-- The spans of an input of `size` terminals that are `width` wider than one
terminal, from left to right. -/
def spansOfWidth (size width : Nat) : List (Nat × Nat) :=
  (List.range (size - width)).map fun first => (first, first + width)

def spansWidening (size : Nat) : List (Nat × Nat) :=
  (List.range size).flatMap (spansOfWidth size)

/-- All spans, the wide ones first; those of one width from left to right. -/
def spansNarrowing (size : Nat) : List (Nat × Nat) :=
  (List.range size).reverse.flatMap (spansOfWidth size)

end WeightedParsing
