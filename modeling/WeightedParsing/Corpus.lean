import WeightedParsing.Chart.Basic

/-!
# Expectations of a corpus

The expected counts of many sentences are summed.  The sentences are dealt out
to workers in chunks of equal size, and the sums of the chunks are merged in
order.  A sentence without a parse is counted, and contributes nothing else.
-/

namespace WeightedParsing

variable {K S : Type} [Scalar K] [WeightAlgebra K S]

structure CorpusSummary (K : Type) where
  counts : ExpectedCounts K
  /-- The sum of the logarithms of the nonzero partition functions. -/
  logLikelihood : K
  parsed : Nat
  unparsable : Nat

namespace CorpusSummary

def empty : CorpusSummary K := ⟨.empty, 0, 0, 0⟩

def merge (summary other : CorpusSummary K) : CorpusSummary K where
  counts := summary.counts.merge other.counts
  logLikelihood := summary.logLikelihood + other.logLikelihood
  parsed := summary.parsed + other.parsed
  unparsable := summary.unparsable + other.unparsable

/-- The summary after one more sentence, of which the chart was filled. -/
def addPass (summary : CorpusSummary K) (pass : OutsidePass S) :
    CorpusSummary K :=
  if WeightAlgebra.isZero pass.partition then
    { summary with unparsable := summary.unparsable + 1 }
  else
    { summary with
      counts := summary.counts.merge pass.normalizedCounts
      logLikelihood :=
        summary.logLikelihood + WeightAlgebra.logWeight pass.partition
      parsed := summary.parsed + 1 }

end CorpusSummary

/-- What a list is cut into from the left, each part of `size` entries except
perhaps the last. -/
def chunksOf {α : Type} (size : Nat) (size_pos : 0 < size) :
    List α → List (List α)
  | [] => []
  | x :: rest =>
      (x :: rest).take size :: chunksOf size size_pos ((x :: rest).drop size)
termination_by entries => entries.length
decreasing_by
  simp only [List.length_drop, List.length_cons]
  omega

/-- The size of a worker's chunk.  There is at least one worker, and no more than
there are sentences. -/
def chunkSize (sentences threads : Nat) : Nat :=
  let workers := max 1 (min threads (max sentences 1))
  max ((sentences + workers - 1) / workers) 1

theorem chunkSize_pos (sentences threads : Nat) :
    0 < chunkSize sentences threads := by
  simp only [chunkSize]
  omega

namespace Model

/-- The summary of a list of sentences, parsed one after the other in the weight
algebra `S`. -/
def summarize (S : Type) [WeightAlgebra K S] (model : Model K) (beamWidth : Nat)
    (beamWidth_pos : 0 < beamWidth) (prior : RootPrior K)
    (sentences : List (List Symbol)) : Except ChartError (CorpusSummary K) :=
  sentences.foldlM
    (fun summary sentence => do
      let chart : Chart S ←
        Chart.parseMarginal model beamWidth beamWidth_pos prior sentence
      let pass ← chart.outsidePass
      return summary.addPass pass)
    .empty

/-- The summary of a corpus that is dealt out to workers. -/
def summarizeCorpus (S : Type) [WeightAlgebra K S] (model : Model K)
    (beamWidth : Nat) (beamWidth_pos : 0 < beamWidth) (prior : RootPrior K)
    (threads : Nat) (sentences : List (List Symbol)) :
    Except ChartError (CorpusSummary K) :=
  if WeightAlgebra.selective S then .error .selective
  else
    (chunksOf (chunkSize sentences.length threads)
        (chunkSize_pos sentences.length threads) sentences).foldlM
      (fun summary chunk => do
        let part ← model.summarize S beamWidth beamWidth_pos prior chunk
        return summary.merge part)
      .empty

end Model

end WeightedParsing
