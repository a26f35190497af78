/-!
# Lines of a text

A line ends with a line feed, and a carriage return right before that line feed
belongs to the line end.  Text after the last line feed is a line of its own
unless it is empty.
-/

namespace WeightedParsing.Text

/-- Drops a carriage return from the front of a line that is held in reverse. -/
def dropReturn : List Char → List Char
  | '\r' :: rest => rest
  | line => line

/-- The lines of `text`, where `pending` holds in reverse what the current line
has so far. -/
def linesFrom (pending : List Char) : List Char → List (List Char)
  | [] => if pending.isEmpty then [] else [pending.reverse]
  | '\n' :: rest => (dropReturn pending).reverse :: linesFrom [] rest
  | c :: rest => linesFrom (c :: pending) rest

def lines (text : String) : List String :=
  (linesFrom [] text.toList).map String.ofList

end WeightedParsing.Text
