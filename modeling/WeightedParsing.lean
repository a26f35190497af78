import WeightedParsing.OrderedTable
import WeightedParsing.Text.Lines
import WeightedParsing.Rule
import WeightedParsing.Weight.Linear
import WeightedParsing.Weight.Log
import WeightedParsing.BoundedHeap
import WeightedParsing.RootPrior
import WeightedParsing.ParseTree
import WeightedParsing.Grammar.Policy
import WeightedParsing.Grammar.Weights
import WeightedParsing.Grammar.Weighted
import WeightedParsing.Decimal.Rounding
import WeightedParsing.SearchLimits
import WeightedParsing.Counts.Conditional
import WeightedParsing.Chart.Extraction
import WeightedParsing.Chart.Text
import WeightedParsing.Beam
import WeightedParsing.Corpus
import WeightedParsing.Weight.Kind
import WeightedParsing.Grammar.Clause
import WeightedParsing.Proofs.Weight.Laws
import WeightedParsing.Proofs.Weight.Tables
import WeightedParsing.Proofs.Weight.Order
import WeightedParsing.Proofs.Selection
import WeightedParsing.Proofs.BoundedHeap
import WeightedParsing.Proofs.Weight.Selective
import WeightedParsing.Proofs.Chart.SpanTable
import WeightedParsing.Proofs.Grammar.Index
import WeightedParsing.Proofs.Derivation.Basic
import WeightedParsing.Proofs.Chart.Inside
import WeightedParsing.Proofs.Chart.Outside
import WeightedParsing.Proofs.Chart.Marginal
import WeightedParsing.Proofs.Chart.Expectation
import WeightedParsing.Proofs.Derivation.Complete
import WeightedParsing.Proofs.Derivation.ContextSum
import WeightedParsing.Proofs.Derivation.Tree
import WeightedParsing.Proofs.Chart.Backpointer
import WeightedParsing.Proofs.Chart.Extraction
import WeightedParsing.Proofs.Derivation.Parse
import WeightedParsing.Proofs.Chart.BestTree
import WeightedParsing.Proofs.Beam.Cell
import WeightedParsing.Proofs.Beam.Held
import WeightedParsing.Proofs.Beam.Trees
import WeightedParsing.Proofs.Beam.Soundness
import WeightedParsing.Proofs.Beam.Exactness
import WeightedParsing.Proofs.Beam.Width
import WeightedParsing.Proofs.Corpus.Split
import WeightedParsing.Proofs.Grammar.Reading
import WeightedParsing.Proofs.Chart.Pruning
import WeightedParsing.Proofs.Agreement
import WeightedParsing.Proofs.Chart.MaxMarginal
import WeightedParsing.Proofs.Chart.Posterior
import WeightedParsing.Proofs.Corpus.Training
import WeightedParsing.Proofs.Grammar.Display
import WeightedParsing.Proofs.Chart.LifeCycle
import WeightedParsing.Proofs.Counts.History
import WeightedParsing.Proofs.BoundedHeap.Listing
import WeightedParsing.Proofs.Chart.SingleTree
import WeightedParsing.Proofs.Rescoring
import WeightedParsing.Proofs.Chart.Locality
import WeightedParsing.Proofs.Chart.Support
import WeightedParsing.Proofs.Beam.Candidates
import WeightedParsing.Proofs.Chart.Candidates
import WeightedParsing.Proofs.Grammar.Lookup
import WeightedParsing.Proofs.Grammar.Building
import WeightedParsing.Proofs.BoundedHeap.Calls
import WeightedParsing.Proofs.Checked.Grammar
import WeightedParsing.Proofs.Symbol.Interning
