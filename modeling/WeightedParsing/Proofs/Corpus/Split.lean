import WeightedParsing.Corpus
import WeightedParsing.Proofs.Chart.Marginal
import WeightedParsing.Proofs.Corpus.Counts

/-!
# Splitting a corpus

In exact arithmetic the summaries of sentences form a monoid, so that a corpus may be
cut into chunks anywhere.  The monoid is commutative up to the order of the entries of
the counts, so that the sentences may come in any order.
-/

namespace WeightedParsing

theorem flatten_chunksOf {α : Type} (size : Nat) (size_pos : 0 < size)
    (entries : List α) : (chunksOf size size_pos entries).flatten = entries := by
  induction entries using chunksOf.induct size size_pos with
  | case1 => simp [chunksOf]
  | case2 x rest ih =>
      rw [chunksOf, List.flatten_cons, ih, List.take_append_drop]

namespace CorpusSummary

variable {K : Type}

/-- Two summaries say the same, whatever the order of their counts. -/
structure Agrees (a b : CorpusSummary K) : Prop where
  counts : ∀ rule, a.counts.table.get? rule = b.counts.table.get? rule
  logLikelihood : a.logLikelihood = b.logLikelihood
  parsed : a.parsed = b.parsed
  unparsable : a.unparsable = b.unparsable

theorem Agrees.refl (summary : CorpusSummary K) : summary.Agrees summary := by
  constructor <;> intros <;> rfl

theorem Agrees.trans {a b c : CorpusSummary K} (hab : a.Agrees b) (hbc : b.Agrees c) :
    a.Agrees c where
  counts rule := (hab.counts rule).trans (hbc.counts rule)
  logLikelihood := hab.logLikelihood.trans hbc.logLikelihood
  parsed := hab.parsed.trans hbc.parsed
  unparsable := hab.unparsable.trans hbc.unparsable

/-- Whether two summaries agree or two errors are the same. -/
def SameOutcome :
    Except ChartError (CorpusSummary K) → Except ChartError (CorpusSummary K) → Prop
  | .ok a, .ok b => a.Agrees b
  | .error a, .error b => a = b
  | _, _ => False

variable {S : Type} [Scalar K] [WeightAlgebra K S]

/-- A summary holds the sums of two others. -/
structure IsSum (whole first second : CorpusSummary K) : Prop where
  counts : ∀ rule,
    whole.counts.get rule = first.counts.get rule + second.counts.get rule
  logLikelihood :
    whole.logLikelihood = first.logLikelihood + second.logLikelihood
  parsed : whole.parsed = first.parsed + second.parsed
  unparsable : whole.unparsable = first.unparsable + second.unparsable

/-- A summary holds the sums over sentences of which the partition function and the
normalized counts are given. -/
structure SumsOver (partition : List Symbol → S)
    (counts : List Symbol → ExpectedCounts K) (sentences : List (List Symbol))
    (summary : CorpusSummary K) : Prop where
  parsed : summary.parsed =
    sentences.countP fun sentence => !WeightAlgebra.isZero (partition sentence)
  unparsable : summary.unparsable =
    sentences.countP fun sentence => WeightAlgebra.isZero (partition sentence)
  parsed_add_unparsable : summary.parsed + summary.unparsable = sentences.length
  logLikelihood : summary.logLikelihood =
    ((sentences.filter fun sentence =>
      !WeightAlgebra.isZero (partition sentence)).map fun sentence =>
        WeightAlgebra.logWeight (partition sentence)).sum
  counts : ∀ rule, summary.counts.get rule =
    ((sentences.filter fun sentence =>
      !WeightAlgebra.isZero (partition sentence)).map fun sentence =>
        (counts sentence).get rule).sum

/-- The summary of some passes. -/
def ofPasses (passes : List (OutsidePass S)) : CorpusSummary K :=
  passes.foldl addPass empty

variable [BEq K] [ExactScalar K]

attribute [local instance] ExactScalar.addCommMonoid

theorem merge_assoc (a b c : CorpusSummary K) :
    (a.merge b).merge c = a.merge (b.merge c) := by
  simp only [merge, ExpectedCounts.merge_assoc, add_assoc]

theorem merge_empty (summary : CorpusSummary K) : summary.merge empty = summary := by
  simp only [merge, empty, ExpectedCounts.merge_empty, add_zero]

theorem Agrees.merge {a b a' b' : CorpusSummary K} (ha : a.Agrees a')
    (hb : b.Agrees b') : (a.merge b).Agrees (a'.merge b') where
  counts rule := by
    change (a.counts.merge b.counts).table.get? rule =
      (a'.counts.merge b'.counts).table.get? rule
    rw [ExpectedCounts.get?_merge, ExpectedCounts.get?_merge, ha.counts, hb.counts]
  logLikelihood := congrArg₂ (· + ·) ha.logLikelihood hb.logLikelihood
  parsed := congrArg₂ (· + ·) ha.parsed hb.parsed
  unparsable := congrArg₂ (· + ·) ha.unparsable hb.unparsable

theorem merge_comm (a b : CorpusSummary K) : (a.merge b).Agrees (b.merge a) where
  counts rule := by
    change (a.counts.merge b.counts).table.get? rule =
      (b.counts.merge a.counts).table.get? rule
    rw [ExpectedCounts.get?_merge, ExpectedCounts.get?_merge]
    cases a.counts.table.get? rule <;> cases b.counts.table.get? rule <;>
      simp [add_comm]
  logLikelihood := add_comm _ _
  parsed := Nat.add_comm _ _
  unparsable := Nat.add_comm _ _

theorem isSum_merge (a b : CorpusSummary K) : (a.merge b).IsSum a b where
  counts := ExpectedCounts.get_merge a.counts b.counts
  logLikelihood := rfl
  parsed := rfl
  unparsable := rfl

theorem addPass_eq_merge (summary : CorpusSummary K) (pass : OutsidePass S) :
    summary.addPass pass = summary.merge (empty.addPass pass) := by
  unfold addPass
  by_cases hzero : WeightAlgebra.isZero pass.partition
  · simp [hzero, merge, empty]
  · simp [hzero, merge, empty, ← ExpectedCounts.merge_assoc]

theorem foldl_addPass (passes : List (OutsidePass S)) (summary : CorpusSummary K) :
    passes.foldl addPass summary = summary.merge (ofPasses passes) := by
  unfold ofPasses
  induction passes generalizing summary with
  | nil => exact (merge_empty summary).symm
  | cons pass rest ih =>
      rw [List.foldl_cons, List.foldl_cons, ih, ih (empty.addPass pass),
        ← merge_assoc, ← addPass_eq_merge]

theorem ofPasses_cons (pass : OutsidePass S) (rest : List (OutsidePass S)) :
    (ofPasses (pass :: rest) : CorpusSummary K) =
      (empty.addPass pass).merge (ofPasses rest) :=
  foldl_addPass rest (empty.addPass pass)

theorem ofPasses_append (passes others : List (OutsidePass S)) :
    (ofPasses (passes ++ others) : CorpusSummary K) =
      (ofPasses passes).merge (ofPasses others) := by
  unfold ofPasses
  rw [List.foldl_append]
  exact foldl_addPass others (ofPasses passes)

theorem ofPasses_perm {passes passes' : List (OutsidePass S)}
    (hperm : passes.Perm passes') :
    (ofPasses passes : CorpusSummary K).Agrees (ofPasses passes') := by
  induction hperm with
  | nil => exact .refl _
  | cons pass _ ih =>
      rw [ofPasses_cons, ofPasses_cons]
      exact (Agrees.refl _).merge ih
  | swap first second rest =>
      rw [ofPasses_cons, ofPasses_cons, ofPasses_cons, ofPasses_cons, ← merge_assoc,
        ← merge_assoc]
      exact (merge_comm _ _).merge (.refl _)
  | trans _ _ ih ih' => exact ih.trans ih'

theorem sumsOver_addPass (pass : List Symbol → OutsidePass S)
    (sentence : List Symbol) :
    (empty.addPass (pass sentence) : CorpusSummary K).SumsOver
      (fun sentence => (pass sentence).partition)
      (fun sentence => (pass sentence).normalizedCounts) [sentence] := by
  have hnone : ∀ rule, (ExpectedCounts.empty : ExpectedCounts K).get rule = 0 :=
    fun _ => rfl
  cases hzero : WeightAlgebra.isZero (pass sentence).partition
  · constructor <;>
      simp [addPass, hzero, empty, ExpectedCounts.get_merge, hnone]
  · constructor <;> simp [addPass, hzero, empty, hnone]

theorem SumsOver.merge {partition : List Symbol → S}
    {counts : List Symbol → ExpectedCounts K} {sentences others : List (List Symbol)}
    {a b : CorpusSummary K} (ha : a.SumsOver partition counts sentences)
    (hb : b.SumsOver partition counts others) :
    (a.merge b).SumsOver partition counts (sentences ++ others) := by
  have hsum := isSum_merge a b
  constructor
  · rw [hsum.parsed, ha.parsed, hb.parsed, List.countP_append]
  · rw [hsum.unparsable, ha.unparsable, hb.unparsable, List.countP_append]
  · rw [hsum.parsed, hsum.unparsable, List.length_append,
      ← ha.parsed_add_unparsable, ← hb.parsed_add_unparsable]
    omega
  · rw [hsum.logLikelihood, ha.logLikelihood, hb.logLikelihood, List.filter_append,
      List.map_append, List.sum_append]
  · intro rule
    rw [hsum.counts, ha.counts, hb.counts, List.filter_append, List.map_append,
      List.sum_append]

theorem sumsOver_ofPasses (pass : List Symbol → OutsidePass S)
    (sentences : List (List Symbol)) :
    (ofPasses (sentences.map pass) : CorpusSummary K).SumsOver
      (fun sentence => (pass sentence).partition)
      (fun sentence => (pass sentence).normalizedCounts) sentences := by
  induction sentences with
  | nil => constructor <;> intros <;> rfl
  | cons sentence rest ih =>
      rw [List.map_cons, ofPasses_cons]
      exact (sumsOver_addPass pass sentence).merge ih

end CorpusSummary

namespace Model

variable {K S : Type} [Scalar K] [WeightAlgebra K S]

theorem foldlM_sentences (model : Model K) (width : Nat) (width_pos : 0 < width)
    (prior : RootPrior K) (sentences : List (List Symbol))
    (summary : CorpusSummary K) :
    sentences.foldlM (fun summary sentence => do
        let chart : Chart S ← Chart.parseMarginal model width width_pos prior sentence
        let pass ← chart.outsidePass
        return summary.addPass pass) summary =
      if [] ∈ sentences then .error .emptyInput
      else .ok ((sentences.map (model.passOver S width width_pos prior)).foldl
        CorpusSummary.addPass summary) := by
  induction sentences generalizing summary with
  | nil => rfl
  | cons sentence rest ih =>
      rw [List.foldlM_cons]
      cases sentence with
      | nil =>
          rw [if_pos List.mem_cons_self]
          rfl
      | cons word words =>
          rw [Chart.parseMarginal_eq model width width_pos prior
            (List.cons_ne_nil word words)]
          refine (ih _).trans ?_
          simp only [List.mem_cons, reduceCtorEq, false_or, List.map_cons,
            List.foldl_cons]
          rfl

theorem summarize_eq (model : Model K) (width : Nat) (width_pos : 0 < width)
    (prior : RootPrior K) (sentences : List (List Symbol)) :
    model.summarize S width width_pos prior sentences =
      if [] ∈ sentences then .error .emptyInput
      else .ok (.ofPasses (sentences.map (model.passOver S width width_pos prior))) :=
  foldlM_sentences model width width_pos prior sentences .empty

variable [BEq K] [ExactScalar K]

theorem foldlM_chunks (model : Model K) (width : Nat) (width_pos : 0 < width)
    (prior : RootPrior K) (chunks : List (List (List Symbol)))
    (summary : CorpusSummary K) :
    chunks.foldlM (fun summary chunk => do
        let part ← model.summarize S width width_pos prior chunk
        return summary.merge part) summary =
      if [] ∈ chunks.flatten then .error .emptyInput
      else .ok (summary.merge
        (.ofPasses (chunks.flatten.map (model.passOver S width width_pos prior)))) := by
  induction chunks generalizing summary with
  | nil => exact congrArg Except.ok (CorpusSummary.merge_empty summary).symm
  | cons chunk rest ih =>
      rw [List.foldlM_cons, summarize_eq, List.flatten_cons]
      by_cases hchunk : [] ∈ chunk
      · rw [if_pos hchunk, if_pos (List.mem_append_left _ hchunk)]
        rfl
      · rw [if_neg hchunk]
        refine (ih _).trans ?_
        rw [List.map_append, CorpusSummary.ofPasses_append,
          ← CorpusSummary.merge_assoc]
        simp only [List.mem_append, hchunk, false_or]

theorem summarizeCorpus_eq (hselective : WeightAlgebra.selective S = false)
    (model : Model K) (width : Nat) (width_pos : 0 < width) (prior : RootPrior K)
    (threads : Nat) (sentences : List (List Symbol)) :
    model.summarizeCorpus S width width_pos prior threads sentences =
      if [] ∈ sentences then .error .emptyInput
      else .ok (.ofPasses (sentences.map (model.passOver S width width_pos prior))) := by
  unfold summarizeCorpus
  rw [if_neg (by simp [hselective]), foldlM_chunks, flatten_chunksOf,
    ← CorpusSummary.foldl_addPass]
  rfl

/-- How the sentences are dealt out, and in which order, makes no difference.  The
summary of a corpus holds the sums over its sentences, each parsed on its own, and the
summary of two corpora the sums of theirs. -/
theorem summarizeCorpus_independent_of_split
    (hselective : WeightAlgebra.selective S = false) (model : Model K) (width : Nat)
    (width_pos : 0 < width) (prior : RootPrior K) (sentences : List (List Symbol)) :
    (∀ threads threads',
      model.summarizeCorpus S width width_pos prior threads sentences =
        model.summarizeCorpus S width width_pos prior threads' sentences) ∧
    ([] ∈ sentences → ∀ threads,
      model.summarizeCorpus S width width_pos prior threads sentences =
        .error .emptyInput) ∧
    ([] ∉ sentences → ∃ summary partition counts,
      (∀ threads, model.summarizeCorpus S width width_pos prior threads sentences =
        .ok summary) ∧
      (∀ sentence ∈ sentences, ∃ chart : Chart S,
        Chart.parseMarginal model width width_pos prior sentence = .ok chart ∧
          chart.partition = .ok (partition sentence) ∧
          chart.normalizedExpectations = .ok (counts sentence)) ∧
      summary.SumsOver partition counts sentences) ∧
    (∀ permuted, sentences.Perm permuted → ∀ threads threads',
      CorpusSummary.SameOutcome
        (model.summarizeCorpus S width width_pos prior threads sentences)
        (model.summarizeCorpus S width width_pos prior threads' permuted)) ∧
    (∀ others first second threads threads' threads'',
      model.summarizeCorpus S width width_pos prior threads sentences = .ok first →
      model.summarizeCorpus S width width_pos prior threads' others = .ok second →
      ∃ whole, model.summarizeCorpus S width width_pos prior threads''
          (sentences ++ others) = .ok whole ∧ whole.IsSum first second) := by
  have heq := summarizeCorpus_eq (S := S) hselective model width width_pos prior
  refine ⟨?_, ?_, ?_, ?_, ?_⟩
  · intro threads threads'
    rw [heq, heq]
  · intro hempty threads
    rw [heq, if_pos hempty]
  · intro hnonempty
    refine ⟨_, _, _, fun threads => (heq threads sentences).trans (if_neg hnonempty),
      ?_, CorpusSummary.sumsOver_ofPasses _ sentences⟩
    intro sentence hsentence
    have hne : sentence ≠ [] := fun h => hnonempty (h ▸ hsentence)
    exact ⟨_, Chart.parseMarginal_eq model width width_pos prior hne, rfl, rfl⟩
  · intro permuted hperm threads threads'
    rw [heq, heq]
    by_cases hempty : [] ∈ sentences
    · rw [if_pos hempty, if_pos (hperm.mem_iff.mp hempty)]
      rfl
    · rw [if_neg hempty, if_neg fun h => hempty (hperm.mem_iff.mpr h)]
      exact CorpusSummary.ofPasses_perm (hperm.map _)
  · intro others first second threads threads' threads'' hfirst hsecond
    rw [heq] at hfirst hsecond
    by_cases hempty : [] ∈ sentences
    · rw [if_pos hempty] at hfirst
      contradiction
    by_cases hother : [] ∈ others
    · rw [if_pos hother] at hsecond
      contradiction
    rw [if_neg hempty, Except.ok.injEq] at hfirst
    rw [if_neg hother, Except.ok.injEq] at hsecond
    subst hfirst hsecond
    refine ⟨_, (heq threads'' _).trans (if_neg ?_), ?_⟩
    · simp [hempty, hother]
    · rw [List.map_append, CorpusSummary.ofPasses_append]
      exact CorpusSummary.isSum_merge _ _

/-- Of three sentences the last has no parse. -/
theorem summarizeCorpus_independent_of_split_three_sentences :
    ∃ summary : CorpusSummary ℚ,
      (∀ threads, summarizeCorpus (SumProduct ℚ)
          ⟨Policy.scan [⟨⟨0⟩, ⟨0⟩, ⟨0⟩, none⟩] [⟨⟨0⟩, [⟨1⟩], none⟩], fun _ => 1 / 2⟩ 1
          Nat.one_pos .uniform threads [[⟨1⟩], [⟨1⟩, ⟨1⟩, ⟨1⟩], [⟨2⟩]] =
        .ok summary) ∧
      summary.parsed = 2 ∧ summary.unparsable = 1 ∧
      summary.counts.get (.terminal ⟨⟨0⟩, [⟨1⟩], none⟩) = 4 := by
  obtain ⟨_, _, hsums, _, _⟩ :=
    summarizeCorpus_independent_of_split (S := SumProduct ℚ) rfl
      ⟨Policy.scan [⟨⟨0⟩, ⟨0⟩, ⟨0⟩, none⟩] [⟨⟨0⟩, [⟨1⟩], none⟩], fun _ => 1 / 2⟩ 1
      Nat.one_pos .uniform [[⟨1⟩], [⟨1⟩, ⟨1⟩, ⟨1⟩], [⟨2⟩]]
  obtain ⟨summary, _, _, hsummary, _, _⟩ := hsums (by decide)
  have hvalue : ∀ {α : Type} (read : CorpusSummary ℚ → α) (a : α),
      ((summarizeCorpus (SumProduct ℚ)
          ⟨Policy.scan [⟨⟨0⟩, ⟨0⟩, ⟨0⟩, none⟩] [⟨⟨0⟩, [⟨1⟩], none⟩], fun _ => 1 / 2⟩ 1
          Nat.one_pos .uniform 2 [[⟨1⟩], [⟨1⟩, ⟨1⟩, ⟨1⟩], [⟨2⟩]]).toOption.map read =
        some a) → read summary = a := by
    intro α read a h
    rw [hsummary] at h
    exact Option.some.inj h
  refine ⟨summary, hsummary, hvalue (·.parsed) 2 ?_, hvalue (·.unparsable) 1 ?_,
    hvalue (·.counts.get (.terminal ⟨⟨0⟩, [⟨1⟩], none⟩)) 4 ?_⟩
  all_goals decide +kernel

end Model

end WeightedParsing
