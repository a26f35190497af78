import WeightedParsing.Chart.Extraction
import WeightedParsing.Proofs.Chart.Inside

/-!
# What a chart is asked

A chart is asked to be filled and to be read.  It grants a request when the passes that this
hangs on have run, and the pass that it would run has not, and its arguments are in range.
A request runs at most one pass, and none if it is refused.
-/

namespace WeightedParsing

variable {K S : Type} [WeightAlgebra K S]

/-! ## Requests -/

/-- What can be read off a chart. -/
inductive Reading (S : Type) where
  | inside (first last : Nat)
  | outside (first last : Nat)
  | marginal (first last : Nat)
  | partition
  | rootWeights
  | binaryExpectations
  | terminalExpectations
  | normalizedExpectations
  | backpointers (symbol : Symbol) (first last : Nat)
  | bestTree (root : Symbol)
  | bestTreeWithSpan (root : Symbol) (first last : Nat)
  | bestTrees (root : Symbol) (count : Nat)
  | bestTreesWithSpan (root : Symbol) (first last count : Nat)
  | bestTreesForPrior (prior : SymbolWeights S) (count : Nat)

namespace Reading

@[simp] def needsOutside : Reading S → Bool
  | outside _ _ | marginal _ _ | partition | rootWeights => true
  | binaryExpectations | terminalExpectations | normalizedExpectations => true
  | _ => false

/-- Whether derivations are told apart, as only a selective algebra does. -/
@[simp] def extracts : Reading S → Bool
  | backpointers _ _ _ | bestTree _ | bestTreeWithSpan _ _ _ => true
  | bestTrees _ _ | bestTreesWithSpan _ _ _ _ | bestTreesForPrior _ _ => true
  | _ => false

/-- The span that is asked for. -/
@[simp] def span? : Reading S → Option (Nat × Nat)
  | inside first last | outside first last | marginal first last => some (first, last)
  | backpointers _ first last | bestTreeWithSpan _ first last => some (first, last)
  | bestTreesWithSpan _ first last _ => some (first, last)
  | _ => none

/-- The number of trees that is asked for. -/
@[simp] def count? : Reading S → Option Nat
  | bestTrees _ count | bestTreesWithSpan _ _ _ count => some count
  | bestTreesForPrior _ count => some count
  | _ => none

end Reading

inductive Request (K S : Type) where
  | fillInside (model : Model K) (input : List Symbol)
  | fillOutside (model : Model K) (prior : RootPrior K)
  | read (reading : Reading S)

namespace Request

def fillsInside : Request K S → Bool
  | fillInside _ _ => true
  | _ => false

def fillsOutside : Request K S → Bool
  | fillOutside _ _ => true
  | _ => false

end Request

inductive Reply (K S : Type) where
  | filled
  | weights (weights : SymbolWeights S)
  | weight (weight : S)
  | uses (uses : List (Rule × S))
  | counts (counts : ExpectedCounts K)
  | backpointers (pointers : List (Backpointer S))
  | tree (tree : Option (ParseTree S))
  | trees (trees : List (ParseTree S))

variable [Scalar K]

namespace Chart

def answer (chart : Chart S) : Reading S → Except ChartError (Reply K S)
  | .inside first last => .weights <$> chart.inside first last
  | .outside first last => .weights <$> chart.outside first last
  | .marginal first last => .weights <$> chart.marginal first last
  | .partition => .weight <$> chart.partition
  | .rootWeights => .weights <$> chart.rootWeights
  | .binaryExpectations => .uses <$> chart.binaryExpectations
  | .terminalExpectations => .uses <$> chart.terminalExpectations
  | .normalizedExpectations => .counts <$> chart.normalizedExpectations
  | .backpointers symbol first last => .backpointers <$> chart.backpointers symbol first last
  | .bestTree root => .tree <$> chart.bestTree root
  | .bestTreeWithSpan root first last => .tree <$> chart.bestTreeWithSpan root first last
  | .bestTrees root count => .trees <$> chart.bestTrees root count
  | .bestTreesWithSpan root first last count =>
      .trees <$> chart.bestTreesWithSpan root first last count
  | .bestTreesForPrior prior count => .trees <$> chart.bestTreesForPrior prior count

/-- The chart that filling gives; without one the chart stays. -/
def adopt (chart : Chart S) :
    Except ChartError (Chart S) → Except ChartError (Reply K S) × Chart S
  | .ok filled => (.ok .filled, filled)
  | .error e => (.error e, chart)

omit [Scalar K] [WeightAlgebra K S] in
theorem isOk_adopt (chart : Chart S) (result : Except ChartError (Chart S)) :
    (chart.adopt (K := K) result).1.isOk = result.isOk := by
  cases result <;> rfl

/-- What a chart replies to a request, and what it is afterwards. -/
def handle (chart : Chart S) : Request K S → Except ChartError (Reply K S) × Chart S
  | .fillInside model input => chart.adopt (chart.fillInside model input)
  | .fillOutside model prior => chart.adopt (chart.fillOutside model prior)
  | .read reading => (chart.answer reading, chart)

/-! ## Which requests are granted -/

section Guards

variable {ε α β : Type}

theorem isOk_iff_exists (guard : Except ε α) : guard.isOk = true ↔ ∃ a, guard = .ok a := by
  cases guard <;> simp [Except.isOk, Except.toBool]

theorem isOk_map (f : α → β) (guard : Except ε α) : (f <$> guard).isOk = guard.isOk := by
  cases guard <;> rfl

theorem isOk_bind_iff {guard : Except ε α} {next : α → Except ε β} {p : Prop}
    (h : ∀ a, (next a).isOk = true ↔ p) :
    (guard >>= next).isOk = true ↔ guard.isOk = true ∧ p := by
  cases guard with
  | ok a => exact (h a).trans (iff_and_self.mpr fun _ => rfl)
  | error => exact iff_of_false (fun h => nomatch h) fun h => nomatch h.1

theorem isOk_bind_pure_iff (guard : Except ε α) (f : α → β) :
    (guard >>= fun a => pure (f a)).isOk = true ↔ guard.isOk = true := by
  cases guard <;> rfl

theorem checkSpan_eq_ok_iff {length first last : Nat} {done : Unit} :
    checkSpan length first last = .ok done ↔ first ≤ last ∧ last < length := by
  unfold checkSpan
  split
  · rename_i h
    exact iff_of_true rfl h
  · rename_i h
    exact iff_of_false (by simp) h

theorem isOk_checkSpan_iff {length first last : Nat} :
    (checkSpan length first last).isOk = true ↔ first ≤ last ∧ last < length := by
  simp only [isOk_iff_exists, checkSpan_eq_ok_iff, exists_const]

/-- A reading of a span of a pass. -/
theorem isOk_spanned_iff (guard : Except ChartError α) (length first last : Nat) (f : α → β) :
    (do
      let pass ← guard
      checkSpan length first last
      return f pass : Except ChartError β).isOk = true ↔
        guard.isOk = true ∧ first ≤ last ∧ last < length :=
  isOk_bind_iff fun _ => (isOk_bind_pure_iff _ _).trans isOk_checkSpan_iff

end Guards

variable (chart : Chart S)

omit [Scalar K] in
theorem isOk_requireSelective_iff :
    chart.requireSelective.isOk = true ↔ WeightAlgebra.selective S = true := by
  unfold requireSelective
  split <;> simp_all [Except.isOk, Except.toBool]

theorem isOk_requireCount_iff {count : Nat} :
    (chart.requireCount count).isOk = true ↔ 1 ≤ count ∧ count ≤ chart.beamWidth := by
  rw [requireCount]
  by_cases hcount : 0 < count ∧ count ≤ chart.beamWidth
  · rw [dif_pos hcount]
    exact iff_of_true rfl hcount
  · rw [dif_neg hcount]
    exact iff_of_false Bool.false_ne_true hcount

omit [Scalar K] in
theorem insideCalculated_eq_false_iff :
    chart.insideCalculated = false ↔ chart.progress = .blank := by
  unfold insideCalculated insidePass
  cases chart.progress <;> simp [Except.isOk, Except.toBool]

omit [Scalar K] in
theorem fillInside_eq_ok_iff (model : Model K) (input : List Symbol) (filled : Chart S) :
    chart.fillInside model input = .ok filled ↔
      chart.insideCalculated = false ∧ input ≠ [] ∧ input.length = chart.length ∧
        { chart with
          progress :=
            .insideDone (.run model chart.beamWidth chart.beamWidth_pos input) } = filled := by
  rw [insideCalculated_eq_false_iff]
  unfold fillInside
  cases chart.progress with
  | blank =>
      dsimp only
      split_ifs with hempty hlength
      · simp [List.isEmpty_iff.mp hempty]
      · simp [hlength]
      · rw [List.isEmpty_iff] at hempty
        simp [hempty, not_not.mp hlength]
  | insideDone => simp
  | outsideDone => simp

theorem fillOutside_eq_ok_iff (model : Model K) (prior : RootPrior K) (filled : Chart S) :
    chart.fillOutside model prior = .ok filled ↔
      chart.outsideCalculated = false ∧ ∃ inside, chart.insidePass = .ok inside ∧
        { chart with progress := .outsideDone inside (.run model prior inside) } = filled := by
  unfold fillOutside outsideCalculated insidePass outsidePass
  cases chart.progress <;> simp [Except.isOk, Except.toBool]

omit [Scalar K] in
theorem isOk_fillInside_iff (model : Model K) (input : List Symbol) :
    (chart.fillInside model input).isOk = true ↔
      chart.insideCalculated = false ∧ input ≠ [] ∧ input.length = chart.length := by
  rw [isOk_iff_exists]
  simp only [fillInside_eq_ok_iff, exists_and_left, exists_eq', and_true]

theorem isOk_fillOutside_iff (model : Model K) (prior : RootPrior K) :
    (chart.fillOutside model prior).isOk = true ↔
      chart.insideCalculated = true ∧ chart.outsideCalculated = false := by
  rw [isOk_iff_exists, insideCalculated, isOk_iff_exists]
  constructor
  · rintro ⟨filled, hfill⟩
    obtain ⟨hopen, inside, hinside, _⟩ := (chart.fillOutside_eq_ok_iff ..).mp hfill
    exact ⟨⟨inside, hinside⟩, hopen⟩
  · rintro ⟨⟨inside, hinside⟩, hopen⟩
    exact ⟨_, (chart.fillOutside_eq_ok_iff ..).mpr ⟨hopen, inside, hinside, rfl⟩⟩

/-- The pass that a reading needs has run, derivations can be told apart if that matters,
and the arguments are in range. -/
def Admits (reading : Reading S) : Prop :=
  (if reading.needsOutside then chart.outsideCalculated else chart.insideCalculated) = true ∧
    (reading.extracts = true → WeightAlgebra.selective S = true) ∧
    (∀ span ∈ reading.span?, span.1 ≤ span.2 ∧ span.2 < chart.length) ∧
    ∀ count ∈ reading.count?, 1 ≤ count ∧ count ≤ chart.beamWidth

omit [Scalar K] in
theorem isOk_bestTreeWithSpan_iff (root : Symbol) (first last : Nat) :
    (chart.bestTreeWithSpan root first last).isOk = true ↔
      WeightAlgebra.selective S = true ∧ chart.insideCalculated = true ∧ first ≤ last ∧
        last < chart.length :=
  (isOk_bind_iff fun _ => isOk_spanned_iff _ _ _ _ _).trans
    (and_congr_left' chart.isOk_requireSelective_iff)

omit [Scalar K] in
theorem isOk_bestTreesWithSpan_iff (root : Symbol) (first last count : Nat) :
    (chart.bestTreesWithSpan root first last count).isOk = true ↔
      WeightAlgebra.selective S = true ∧ chart.insideCalculated = true ∧
        (1 ≤ count ∧ count ≤ chart.beamWidth) ∧ first ≤ last ∧ last < chart.length := by
  rw [← isOk_requireSelective_iff chart, ← isOk_requireCount_iff chart]
  exact isOk_bind_iff fun _ => isOk_bind_iff fun _ => isOk_spanned_iff _ _ _ _ _

omit [Scalar K] in
theorem isOk_bestTreesForPrior_iff (roots : SymbolWeights S) (count : Nat) :
    (chart.bestTreesForPrior roots count).isOk = true ↔
      WeightAlgebra.selective S = true ∧ chart.insideCalculated = true ∧
        1 ≤ count ∧ count ≤ chart.beamWidth := by
  rw [← isOk_requireSelective_iff chart, ← isOk_requireCount_iff chart]
  exact isOk_bind_iff fun _ => isOk_bind_iff fun _ => isOk_bind_pure_iff _ _

/-- An empty chart has no span that is its whole input, which some readings are about. -/
theorem isOk_answer_iff (hpos : chart.insideCalculated = true → 0 < chart.length)
    (reading : Reading S) : (chart.answer reading).isOk = true ↔ chart.Admits reading := by
  have hwhole : chart.insideCalculated = true → chart.length - 1 < chart.length :=
    fun h => Nat.sub_one_lt_of_lt (hpos h)
  cases reading with
  | inside first last =>
      rw [answer, isOk_map, inside, isOk_spanned_iff]
      simp [Admits, insideCalculated]
  | outside first last =>
      rw [answer, isOk_map, outside, isOk_spanned_iff]
      simp [Admits, outsideCalculated]
  | marginal first last =>
      rw [answer, isOk_map, marginal, isOk_spanned_iff]
      simp [Admits, outsideCalculated]
  | partition =>
      rw [answer, isOk_map, partition, isOk_bind_pure_iff]
      simp [Admits, outsideCalculated]
  | rootWeights =>
      rw [answer, isOk_map, rootWeights, isOk_bind_pure_iff]
      simp [Admits, outsideCalculated]
  | binaryExpectations =>
      rw [answer, isOk_map, binaryExpectations, isOk_bind_pure_iff, expectations,
        isOk_bind_pure_iff]
      simp [Admits, outsideCalculated]
  | terminalExpectations =>
      rw [answer, isOk_map, terminalExpectations, isOk_bind_pure_iff, expectations,
        isOk_bind_pure_iff]
      simp [Admits, outsideCalculated]
  | normalizedExpectations =>
      rw [answer, isOk_map, normalizedExpectations, isOk_bind_pure_iff]
      simp [Admits, outsideCalculated]
  | backpointers symbol first last =>
      rw [answer, isOk_map, backpointers, isOk_bind_iff fun _ => isOk_spanned_iff _ _ _ _ _,
        isOk_requireSelective_iff]
      simp [Admits, insideCalculated, and_left_comm]
  | bestTree root =>
      rw [answer, isOk_map, bestTree, isOk_bind_iff fun _ => chart.isOk_bestTreeWithSpan_iff ..]
      constructor
      · rintro ⟨hinside, hselective, _⟩
        exact ⟨hinside, fun _ => hselective, by simp, by simp⟩
      · rintro ⟨hinside, hselective, _⟩
        exact ⟨hinside, hselective rfl, hinside, Nat.zero_le _, hwhole hinside⟩
  | bestTreeWithSpan root first last =>
      rw [answer, isOk_map, isOk_bestTreeWithSpan_iff]
      simp [Admits, and_left_comm]
  | bestTrees root count =>
      rw [answer, isOk_map, bestTrees, isOk_bind_iff fun _ => chart.isOk_bestTreesWithSpan_iff ..]
      constructor
      · rintro ⟨hinside, hselective, _, hcount, _⟩
        exact ⟨hinside, fun _ => hselective, by simp, by simpa using hcount⟩
      · rintro ⟨hinside, hselective, _, hcount⟩
        exact ⟨hinside, hselective rfl, hinside, hcount count rfl, Nat.zero_le _,
          hwhole hinside⟩
  | bestTreesWithSpan root first last count =>
      rw [answer, isOk_map, isOk_bestTreesWithSpan_iff]
      constructor
      · rintro ⟨hselective, hinside, hcount, hspan⟩
        exact ⟨hinside, fun _ => hselective, by simpa using hspan, by simpa using hcount⟩
      · rintro ⟨hinside, hselective, hspan, hcount⟩
        exact ⟨hselective rfl, hinside, hcount count rfl, hspan (first, last) rfl⟩
  | bestTreesForPrior prior count =>
      rw [answer, isOk_map, isOk_bestTreesForPrior_iff]
      simp [Admits, and_left_comm]

/-! ## What a request does -/

theorem handle_cases (request : Request K S) :
    (∃ model input, request = .fillInside model input ∧ chart.insideCalculated = false ∧
        input ≠ [] ∧ input.length = chart.length ∧
        chart.handle request = (.ok .filled,
          { chart with
            progress :=
              .insideDone (.run model chart.beamWidth chart.beamWidth_pos input) })) ∨
      (∃ model prior inside, request = .fillOutside model prior ∧
        chart.outsideCalculated = false ∧ chart.insidePass = .ok inside ∧
        chart.handle request = (.ok .filled,
          { chart with progress := .outsideDone inside (.run model prior inside) })) ∨
      ((chart.handle request).2 = chart ∧
        ((chart.handle request).1.isOk = true → ∃ reading, request = .read reading)) := by
  cases request with
  | fillInside model input =>
      rw [handle]
      cases hfill : chart.fillInside model input with
      | error e => exact .inr (.inr ⟨rfl, fun h => nomatch h⟩)
      | ok filled =>
          obtain ⟨hblank, hinput, hlength, rfl⟩ := (chart.fillInside_eq_ok_iff ..).mp hfill
          exact .inl ⟨model, input, rfl, hblank, hinput, hlength, rfl⟩
  | fillOutside model prior =>
      rw [handle]
      cases hfill : chart.fillOutside model prior with
      | error e => exact .inr (.inr ⟨rfl, fun h => nomatch h⟩)
      | ok filled =>
          obtain ⟨hopen, inside, hinside, rfl⟩ := (chart.fillOutside_eq_ok_iff ..).mp hfill
          exact .inr (.inl ⟨model, prior, inside, rfl, hopen, hinside, rfl⟩)
  | read reading => exact .inr (.inr ⟨rfl, fun _ => ⟨reading, rfl⟩⟩)

theorem handle_error {request : Request K S} {e : ChartError}
    (h : (chart.handle request).1 = .error e) : (chart.handle request).2 = chart := by
  obtain ⟨_, _, _, _, _, _, hfill⟩ | ⟨_, _, _, _, _, _, hfill⟩ | ⟨hkept, _⟩ :=
    chart.handle_cases request
  · rw [hfill] at h
    exact nomatch h
  · rw [hfill] at h
    exact nomatch h
  · exact hkept

theorem length_handle (request : Request K S) :
    (chart.handle request).2.length = chart.length ∧
      (chart.handle request).2.beamWidth = chart.beamWidth := by
  obtain ⟨_, _, _, _, _, _, h⟩ | ⟨_, _, _, _, _, _, h⟩ | ⟨h, _⟩ := chart.handle_cases request
  · rw [h]
    exact ⟨rfl, rfl⟩
  · rw [h]
    exact ⟨rfl, rfl⟩
  · rw [h]
    exact ⟨rfl, rfl⟩

omit [Scalar K] in
theorem insideCalculated_of_outsideCalculated (h : chart.outsideCalculated = true) :
    chart.insideCalculated = true := by
  unfold outsideCalculated outsidePass at h
  unfold insideCalculated insidePass
  cases hprogress : chart.progress with
  | blank =>
      rw [hprogress] at h
      exact nomatch h
  | insideDone => rfl
  | outsideDone => rfl

theorem insideCalculated_handle_iff (request : Request K S) :
    (chart.handle request).2.insideCalculated = true ↔
      chart.insideCalculated = true ∨
        (request.fillsInside = true ∧ (chart.handle request).1.isOk = true) := by
  obtain ⟨_, _, rfl, _, _, _, h⟩ | ⟨_, _, inside, rfl, _, hinside, h⟩ | ⟨h, hread⟩ :=
    chart.handle_cases request
  · rw [h]
    exact iff_of_true rfl (.inr ⟨rfl, rfl⟩)
  · rw [h]
    exact iff_of_true rfl (.inl (by rw [insideCalculated, hinside]; rfl))
  · rw [h]
    refine (or_iff_left fun hfill => ?_).symm
    obtain ⟨reading, rfl⟩ := hread hfill.2
    exact nomatch hfill.1

theorem outsideCalculated_handle_iff (request : Request K S) :
    (chart.handle request).2.outsideCalculated = true ↔
      chart.outsideCalculated = true ∨
        (request.fillsOutside = true ∧ (chart.handle request).1.isOk = true) := by
  obtain ⟨_, _, rfl, hblank, _, _, h⟩ | ⟨_, _, _, rfl, _, _, h⟩ | ⟨h, hread⟩ :=
    chart.handle_cases request
  · rw [h]
    have hopen : ¬ chart.outsideCalculated = true := fun houtside => by
      rw [chart.insideCalculated_of_outsideCalculated houtside] at hblank
      exact nomatch hblank
    exact iff_of_false (fun h => nomatch h) fun h =>
      h.elim hopen fun hfill => nomatch hfill.1
  · rw [h]
    exact iff_of_true rfl (.inr ⟨rfl, rfl⟩)
  · rw [h]
    refine (or_iff_left fun hfill => ?_).symm
    obtain ⟨reading, rfl⟩ := hread hfill.2
    exact nomatch hfill.1

/-! ## What the passes leave in a chart -/

variable {chart}

/-- What the passes of a chart leave in it. -/
structure WellFilled (chart : Chart S) : Prop where
  inside : ∀ pass, chart.insidePass = .ok pass →
    0 < chart.length ∧ pass.input.length = chart.length ∧
      ∃ model : Model K, pass = .run model chart.beamWidth chart.beamWidth_pos pass.input
  outside : ∀ pass, chart.outsidePass = .ok pass →
    ∃ (model : Model K) (prior : RootPrior K) (inside : InsidePass S),
      chart.insidePass = .ok inside ∧ pass = .run model prior inside

namespace WellFilled

variable (hchart : chart.WellFilled)

include hchart

theorem size_cells {pass : InsidePass S} (hpass : chart.insidePass = .ok pass) :
    pass.cells.size = chart.length := by
  obtain ⟨_, hlength, model, hrun⟩ := hchart.inside pass hpass
  rw [hrun, ← hlength]
  exact InsidePass.size_cells_run ..

/-- A pass that spans are read from is a run over an input that they lie within. -/
theorem exists_run {pass : InsidePass S} {first last : Nat} {done : Unit}
    (hpass : chart.insidePass = .ok pass) (hguard : checkSpan chart.length first last = .ok done) :
    ∃ model : Model K, pass = .run model chart.beamWidth chart.beamWidth_pos pass.input ∧
      first ≤ last ∧ last < pass.input.length := by
  obtain ⟨_, hlength, model, hrun⟩ := hchart.inside pass hpass
  rw [checkSpan_eq_ok_iff, ← hlength] at hguard
  exact ⟨model, hrun, hguard⟩

theorem size_outside {pass : OutsidePass S} (hpass : chart.outsidePass = .ok pass) :
    pass.outside.size = chart.length ∧ pass.marginal.size = chart.length := by
  obtain ⟨model, prior, inside, hinside, rfl⟩ := hchart.outside pass hpass
  constructor
  · rw [← (hchart.inside inside hinside).2.1]
    exact SpanTable.size_sweep _
  · rw [← hchart.size_cells hinside]
    exact SpanTable.size_sweep _

theorem handle (request : Request K S) :
    (chart.handle request).2.WellFilled := by
  obtain ⟨model, input, _, _, hinput, hlength, h⟩ |
    ⟨model, prior, inside, _, _, hinside, h⟩ | ⟨h, _⟩ := chart.handle_cases request
  · rw [h]
    constructor
    · intro pass hpass
      cases hpass
      exact ⟨hlength ▸ List.length_pos_iff.mpr hinput, hlength, model, rfl⟩
    · intro pass hpass
      exact nomatch hpass
  · rw [h]
    constructor
    · intro pass hpass
      cases hpass
      exact hchart.inside inside hinside
    · intro pass hpass
      cases hpass
      exact ⟨model, prior, inside, rfl, rfl⟩
  · rw [h]
    exact hchart

theorem length_terminals (h : chart.insideCalculated = true) :
    0 < chart.length ∧ chart.terminals.length = chart.length := by
  obtain ⟨pass, hpass⟩ := (isOk_iff_exists _).mp h
  obtain ⟨hpos, hlength, _⟩ := hchart.inside pass hpass
  refine ⟨hpos, ?_⟩
  rw [terminals, hpass]
  exact hlength

end WellFilled

/-- The chart holds what the inside pass left of an input, whatever came after it. -/
structure FilledFrom (chart : Chart S) (model : Model K) (input : List Symbol) : Prop where
  length_eq : input.length = chart.length
  insidePass_eq :
    chart.insidePass = .ok (.run model chart.beamWidth chart.beamWidth_pos input)

omit [Scalar K] in
theorem filledFrom_of_fillInside {filled : Chart S} {model : Model K} {input : List Symbol}
    (hfill : chart.fillInside model input = .ok filled) : filled.FilledFrom model input := by
  obtain ⟨_, _, hlength, rfl⟩ := (chart.fillInside_eq_ok_iff model input filled).mp hfill
  exact ⟨hlength, rfl⟩

theorem FilledFrom.fillOutside {full : Chart S} {model later : Model K}
    {input : List Symbol} (hchart : chart.FilledFrom model input) {prior : RootPrior K}
    (hfull : chart.fillOutside later prior = .ok full) : full.FilledFrom model input := by
  obtain ⟨_, inside, hinside, rfl⟩ :=
    (chart.fillOutside_eq_ok_iff later prior full).mp hfull
  exact ⟨hchart.length_eq, hinside.symm.trans hchart.insidePass_eq⟩

end Chart

end WeightedParsing
