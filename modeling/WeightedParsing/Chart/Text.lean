import WeightedParsing.Chart.Basic
import WeightedParsing.Decimal.Rounding

/-!
# The text of a chart

Every span with an entry is shown with its weights as probabilities, the narrow
spans first.  The partition function follows once it is known.
-/

namespace WeightedParsing.Chart

variable {S : Type} [WeightAlgebra Float S]

/-- Weights are written with six places. -/
def weightFormat : Decimal.FixedFormat := ⟨6, true, "NaN"⟩

def weightText (weight : S) : String :=
  weightFormat.text (WeightAlgebra.toWeight weight)

/-- A line of weights by symbol under a label, or nothing without entries. -/
def weightsLine (symbols : SymbolTable) (label : String)
    (weights : SymbolWeights S) : String :=
  if weights.isEmpty then ""
  else
    "  " ++ label ++ ":" ++
      String.join ((sortBySymbol weights.entries).map fun entry =>
        " " ++ symbols.text entry.1 ++ "=" ++ weightText entry.2) ++ "\n"

/-- The lines of a span, or nothing if it has no entry. -/
def spanText (symbols : SymbolTable) (first last : Nat)
    (inside outside marginal : SymbolWeights S) : String :=
  if inside.isEmpty && outside.isEmpty then ""
  else
    toString first ++ ".." ++ toString last ++ ":\n" ++
      weightsLine symbols "inside" inside ++
      weightsLine symbols "outside" outside ++
      weightsLine symbols "marginal" marginal

def text (symbols : SymbolTable) (chart : Chart S) : String :=
  match chart.progress with
  | .blank => ""
  | .insideDone inside =>
      String.join ((spansWidening chart.length).map fun (first, last) =>
        spanText symbols first last (inside.inside first last) .empty .empty)
  | .outsideDone inside outside =>
      String.join ((spansWidening chart.length).map fun (first, last) =>
        spanText symbols first last (inside.inside first last)
          (outside.outside.get first last) (outside.marginal.get first last)) ++
        "partition function: " ++ weightText outside.partition ++ "\n"

end WeightedParsing.Chart
