import WeightedParsing.Chart.InPlace
import WeightedParsing.Proofs.Chart.Requests
import WeightedParsing.Proofs.Checked.Trees

/-!
# What charts that are filled in place do

The flagged form of a chart behaves as the chart does: every request to it gives the same
result, and a request that gives an error has not changed it yet.  This rests on what the
passes see to: the chart is not empty after the inside pass, and its tables have the size
that the guards compare spans with.

One fault is left.  Reading back-pointers or trees sorts, and where the entries of the chart
are not all fit for it a request that no guard refuses may break off.
-/

namespace WeightedParsing

variable {K S : Type} [WeightAlgebra K S]

namespace Chart

variable (chart : Chart S)

@[simp] theorem length_flagged : chart.flagged.length = chart.length := by
  unfold flagged
  cases chart.progress <;> rfl

@[simp] theorem beamWidth_flagged : chart.flagged.beamWidth = chart.beamWidth := by
  unfold flagged
  cases chart.progress <;> rfl

@[simp] theorem insideCalculated_flagged :
    chart.flagged.insideCalculated = chart.insideCalculated := by
  unfold flagged insideCalculated insidePass
  cases chart.progress <;> rfl

@[simp] theorem outsideCalculated_flagged :
    chart.flagged.outsideCalculated = chart.outsideCalculated := by
  unfold flagged outsideCalculated outsidePass
  cases chart.progress <;> rfl

@[simp] theorem terminals_flagged : chart.flagged.terminals = chart.terminals := by
  unfold flagged terminals insidePass
  cases chart.progress <;> rfl

variable {chart} in
theorem inside_flagged {pass : InsidePass S} (hpass : chart.insidePass = .ok pass) :
    chart.flagged.inside = pass := by
  unfold insidePass at hpass
  unfold flagged
  cases hprogress : chart.progress with
  | blank =>
      rw [hprogress] at hpass
      contradiction
  | insideDone inside =>
      rw [hprogress] at hpass
      exact Except.ok.inj hpass
  | outsideDone inside outside =>
      rw [hprogress] at hpass
      exact Except.ok.inj hpass

end Chart

/-! ## Methods -/

namespace InPlace

variable {α β : Type}

/-- A method gives a result and leaves the chart as it is. -/
def Gives (method : InPlace S α) (chart : FlaggedChart S) (result : Except ChartError α) :
    Prop :=
  method.perform chart = .ok (result, chart)

theorem perform_get (next : FlaggedChart S → InPlace S α) (chart : FlaggedChart S) :
    (get >>= next).perform chart = (next chart).perform chart := rfl

theorem perform_bind (method : InPlace S α) (next : α → InPlace S β) (chart : FlaggedChart S) :
    (method >>= next).perform chart =
      method.perform chart >>= fun after =>
        (ExceptT.bindCont next after.1).run after.2 := rfl

theorem perform_bind_ok {method : InPlace S α} {next : α → InPlace S β}
    {chart after : FlaggedChart S} {a : α} (h : method.perform chart = .ok (.ok a, after)) :
    (method >>= next).perform chart = (next a).perform after := by
  rw [perform_bind, h]
  rfl

theorem perform_bind_error {method : InPlace S α} {next : α → InPlace S β}
    {chart after : FlaggedChart S} {e : ChartError}
    (h : method.perform chart = .ok (.error e, after)) :
    (method >>= next).perform chart = .ok (.error e, after) := by
  rw [perform_bind, h]
  rfl

theorem Gives.bind {method : InPlace S α} {next : α → InPlace S β} {chart : FlaggedChart S}
    {result : Except ChartError α} {f : α → Except ChartError β}
    (hmethod : method.Gives chart result)
    (hnext : ∀ a, result = .ok a → (next a).Gives chart (f a)) :
    (method >>= next).Gives chart (result >>= f) := by
  cases result with
  | ok a => exact (perform_bind_ok hmethod).trans (hnext a rfl)
  | error => exact perform_bind_error hmethod

theorem gives_lift {computed : Checked α} {a : α} (chart : FlaggedChart S)
    (h : computed = .ok a) : Gives (liftM computed : InPlace S α) chart (.ok a) := by
  subst h
  rfl

/-! ## Breaking off -/

/-- A method breaks off at a sort. -/
def BreaksOff (method : InPlace S α) (chart : FlaggedChart S) : Prop :=
  method.perform chart = .error (.misuse .noTotalOrder)

/-- A method gives a result and leaves the chart as it is.  If the entries of the chart are
not all fit to be sorted, it may break off instead of giving a result that is no error. -/
def Yields (method : InPlace S α) (chart : FlaggedChart S) (result : Except ChartError α) :
    Prop :=
  method.Gives chart result ∨
    result.isOk = true ∧ ¬ chart.inside.Sortable ∧ method.BreaksOff chart

theorem Yields.of_perform_eq {method other : InPlace S α} {chart : FlaggedChart S}
    {result : Except ChartError α} (h : method.perform chart = other.perform chart)
    (hother : other.Yields chart result) : method.Yields chart result := by
  unfold Yields Gives BreaksOff at *
  rw [h]
  exact hother

theorem breaksOff_map_iff {method : InPlace S α} {chart : FlaggedChart S} (f : α → β) :
    (f <$> method).BreaksOff chart ↔ method.BreaksOff chart := by
  rw [BreaksOff, BreaksOff, ← bind_pure_comp, perform_bind]
  rcases method.perform chart with fault | ⟨result, after⟩
  · constructor <;> exact fun h => congrArg Except.error (Except.error.inj h)
  · cases result <;> exact iff_of_false (fun h => nomatch h) fun h => nomatch h

theorem Gives.not_breaksOff {method : InPlace S α} {chart : FlaggedChart S}
    {result : Except ChartError α} (h : method.Gives chart result) :
    ¬ method.BreaksOff chart := fun hbreak => nomatch h.symm.trans hbreak

theorem Gives.bind_yields {method : InPlace S α} {next : α → InPlace S β}
    {chart : FlaggedChart S} {result : Except ChartError α} {f : α → Except ChartError β}
    (hmethod : method.Gives chart result)
    (hnext : ∀ a, result = .ok a → (next a).Yields chart (f a)) :
    (method >>= next).Yields chart (result >>= f) := by
  cases result with
  | error => exact .inl (perform_bind_error hmethod)
  | ok a => exact .of_perform_eq (perform_bind_ok hmethod) (hnext a rfl)

theorem yields_lift {computed : Checked α} {a : α} {chart : FlaggedChart S}
    (h : Checked.Yields chart.inside.Sortable computed a) :
    Yields (liftM computed : InPlace S α) chart (.ok a) := by
  rcases h with rfl | ⟨hsortable, rfl⟩
  · exact .inl rfl
  · exact .inr ⟨rfl, hsortable, rfl⟩

section Guards

variable (chart : Chart S)

theorem gives_insidePass : Gives insidePass chart.flagged chart.insidePass := by
  unfold Chart.flagged Chart.insidePass
  cases chart.progress <;> rfl

theorem gives_outsidePass : Gives outsidePass chart.flagged chart.outsidePass := by
  unfold Chart.flagged Chart.outsidePass
  cases chart.progress <;> rfl

theorem gives_checkSpan (first last : Nat) :
    Gives (checkSpan first last) chart.flagged
      (WeightedParsing.checkSpan chart.length first last) := by
  rw [Gives, checkSpan, perform_get, Chart.length_flagged, WeightedParsing.checkSpan]
  split <;> rfl

theorem gives_requireSelective :
    Gives requireSelective chart.flagged chart.requireSelective := by
  unfold requireSelective Chart.requireSelective
  split <;> rfl

theorem gives_requireCount (count : Nat) :
    Gives (requireCount count) chart.flagged (chart.requireCount count) := by
  have hwidth := chart.beamWidth_flagged
  rw [Gives, requireCount, perform_get, Chart.requireCount]
  by_cases hcount : 0 < count ∧ count ≤ chart.beamWidth
  · rw [dif_pos hcount, dif_pos (hwidth.symm ▸ hcount)]
    rfl
  · rw [dif_neg hcount, dif_neg (hwidth.symm ▸ hcount), hwidth]
    rfl

end Guards

/-! ## Filling -/

/-- What a method that fills the flagged form of a chart has to do if filling the chart gives
a result. -/
def Fills (method : InPlace S Unit) (chart : Chart S) :
    (result : Except ChartError (Chart S)) → Prop
  | .ok filled => method.perform chart.flagged = .ok (.ok (), filled.flagged)
  | .error e => method.perform chart.flagged = .ok (.error e, chart.flagged)

theorem fills_fillInside (chart : Chart S) (model : Model K) (input : List Symbol) :
    (fillInside model input).Fills chart (chart.fillInside model input) := by
  obtain ⟨length, width, width_pos, progress⟩ := chart
  cases progress with
  | blank =>
      let blank : FlaggedChart S := .blank length width width_pos
      have hset : (setTerminals input).perform blank =
          (if input.isEmpty then throw .emptyInput
          else if input.length ≠ length then
            throw (.lengthMismatch length input.length)
          else set (blank.withTerminals input) :
            InPlace S Unit).perform blank := rfl
      unfold Chart.fillInside
      dsimp only
      split_ifs with hempty hlength
      · rw [if_pos hempty] at hset
        exact perform_bind_error hset
      · rw [if_neg hempty, if_pos hlength] at hset
        exact perform_bind_error hset
      · rw [if_neg hempty, if_neg hlength] at hset
        have hpass := gives_lift (blank.withTerminals input)
          (Checked.insidePass_eq (S := S) model width width_pos input)
        exact (perform_bind_ok hset).trans (perform_bind_ok hpass)
  | insideDone => rfl
  | outsideDone => rfl

theorem fills_fillOutside [Scalar K] {chart : Chart S} (hchart : chart.WellFilled)
    (model : Model K) (prior : RootPrior K) :
    (fillOutside model prior).Fills chart (chart.fillOutside model prior) := by
  obtain ⟨length, width, width_pos, progress⟩ := chart
  cases progress with
  | blank => rfl
  | insideDone inside =>
      obtain ⟨hpos, hlength, _⟩ := hchart.inside inside rfl
      dsimp only at hpos hlength
      have hpass := gives_lift ((FlaggedChart.blank length width width_pos).withInside inside)
        (Checked.outsidePass_eq model prior ((hchart.size_cells rfl).trans hlength.symm)
          (by omega))
      exact perform_bind_ok hpass
  | outsideDone => rfl

/-! ## Reading -/

theorem Gives.bind_pure {method : InPlace S α} {chart : FlaggedChart S}
    {result : Except ChartError α} (h : method.Gives chart result) (f : α → β) :
    Gives (method >>= fun a => pure (f a)) chart (result >>= fun a => pure (f a)) :=
  h.bind fun _ _ => rfl

section Readers

variable [Scalar K] {chart : Chart S} (hchart : chart.WellFilled)

include hchart

theorem gives_inside (first last : Nat) :
    Gives (inside first last) chart.flagged (chart.inside first last) := by
  refine (gives_insidePass chart).bind fun pass hpass =>
    (gives_checkSpan chart first last).bind fun _ hguard => gives_lift _ ?_
  obtain ⟨hspan, hlast⟩ := Chart.checkSpan_eq_ok_iff.mp hguard
  rw [← hchart.size_cells hpass] at hlast
  exact Checked.reads_weightsOf pass.cells.reads first last hspan hlast

theorem gives_outside (first last : Nat) :
    Gives (outside first last) chart.flagged (chart.outside first last) := by
  refine (gives_outsidePass chart).bind fun pass hpass =>
    (gives_checkSpan chart first last).bind fun _ hguard => gives_lift _ ?_
  obtain ⟨hspan, hlast⟩ := Chart.checkSpan_eq_ok_iff.mp hguard
  rw [← (hchart.size_outside hpass).1] at hlast
  exact pass.outside.reads first last hspan hlast

theorem gives_marginal (first last : Nat) :
    Gives (marginal first last) chart.flagged (chart.marginal first last) := by
  refine (gives_outsidePass chart).bind fun pass hpass =>
    (gives_checkSpan chart first last).bind fun _ hguard => gives_lift _ ?_
  obtain ⟨hspan, hlast⟩ := Chart.checkSpan_eq_ok_iff.mp hguard
  rw [← (hchart.size_outside hpass).2] at hlast
  exact pass.marginal.reads first last hspan hlast

theorem yields_backpointers (symbol : Symbol) (first last : Nat) :
    Yields (backpointers symbol first last) chart.flagged
      (chart.backpointers symbol first last) := by
  refine (gives_requireSelective chart).bind_yields fun _ _ =>
    (gives_insidePass chart).bind_yields fun pass hpass =>
      (gives_checkSpan chart first last).bind_yields fun _ hguard => yields_lift ?_
  obtain ⟨model, hrun, hspan, hlast⟩ := hchart.exists_run hpass hguard
  rw [Chart.inside_flagged hpass, hrun]
  exact Checked.yields_sortedBackpointers model _ _ pass.input symbol hspan hlast

/-- Past its guards, reading the back-pointers of an entry sorts them. -/
theorem perform_backpointers {symbol : Symbol} {first last : Nat}
    (hok : (chart.backpointers symbol first last).isOk = true) :
    (backpointers symbol first last).perform chart.flagged =
      (liftM (if (chart.flagged.inside.cells.get first last).Sortable symbol then
          .ok (chart.flagged.inside.sortedBackpointers symbol first last)
        else .error (.misuse .noTotalOrder) : Checked (List (Backpointer S))) :
          InPlace S (List (Backpointer S))).perform chart.flagged := by
  obtain ⟨_, hread⟩ := (Chart.isOk_iff_exists _).mp hok
  obtain ⟨_, hselective, hread⟩ := exists_of_bind_eq_ok hread
  obtain ⟨pass, hpass, hread⟩ := exists_of_bind_eq_ok hread
  obtain ⟨_, hguard, _⟩ := exists_of_bind_eq_ok hread
  obtain ⟨model, hrun, hspan, hlast⟩ := hchart.exists_run hpass hguard
  have hsorted := Checked.sortedBackpointers_eq (S := S) model _ chart.beamWidth_pos pass.input
    symbol hspan hlast
  have hallowed := gives_requireSelective chart
  have hfilled := gives_insidePass chart
  have hinside := gives_checkSpan chart first last
  rw [hselective] at hallowed
  rw [hpass] at hfilled
  rw [hguard] at hinside
  rw [Chart.inside_flagged hpass, hrun, ← hsorted, ← hrun]
  exact (perform_bind_ok hallowed).trans
    ((perform_bind_ok hfilled).trans (perform_bind_ok hinside))

/-- Reading the back-pointers of an entry breaks off just where these are not fit to be
sorted. -/
theorem breaksOff_backpointers_iff (symbol : Symbol) (first last : Nat) :
    (backpointers symbol first last).BreaksOff chart.flagged ↔
      (chart.backpointers symbol first last).isOk = true ∧
        ¬ (chart.flagged.inside.cells.get first last).Sortable symbol := by
  by_cases hok : (chart.backpointers symbol first last).isOk = true
  · rw [BreaksOff, perform_backpointers hchart hok, and_iff_right hok]
    split
    · rename_i hcell
      exact iff_of_false (fun hbreak => nomatch hbreak) (not_not_intro hcell)
    · rename_i hcell
      exact iff_of_true rfl hcell
  · refine iff_of_false ?_ fun h => hok h.1
    rcases yields_backpointers hchart symbol first last with hgives | ⟨hread, _⟩
    · exact hgives.not_breaksOff
    · exact absurd hread hok

theorem yields_bestTreeWithSpan (root : Symbol) (first last : Nat) :
    Yields (bestTreeWithSpan root first last) chart.flagged
      (chart.bestTreeWithSpan root first last) := by
  refine (gives_requireSelective chart).bind_yields fun _ _ =>
    (gives_insidePass chart).bind_yields fun pass hpass =>
      (gives_checkSpan chart first last).bind_yields fun _ hguard => yields_lift ?_
  obtain ⟨model, hrun, hspan, hlast⟩ := hchart.exists_run hpass hguard
  rw [Chart.inside_flagged hpass, hrun]
  exact Checked.yields_bestTree model _ _ pass.input root hspan hlast

theorem yields_bestTreesWithSpan (root : Symbol) (first last count : Nat) :
    Yields (bestTreesWithSpan root first last count) chart.flagged
      (chart.bestTreesWithSpan root first last count) := by
  refine (gives_requireSelective chart).bind_yields fun _ _ =>
    (gives_insidePass chart).bind_yields fun pass hpass =>
      (gives_requireCount chart count).bind_yields fun count_pos _ =>
        (gives_checkSpan chart first last).bind_yields fun _ hguard => yields_lift ?_
  obtain ⟨model, hrun, hspan, hlast⟩ := hchart.exists_run hpass hguard
  rw [Chart.inside_flagged hpass, hrun]
  exact Checked.yields_bestTrees model _ _ pass.input count_pos.down root hspan hlast

/-- The last terminal of a chart with inside weights. -/
theorem gives_last {pass : InsidePass S} (hpass : chart.insidePass = .ok pass) :
    Gives (liftM (Checked.sub chart.flagged.length 1) : InPlace S Nat) chart.flagged
      (.ok (chart.length - 1)) := by
  rw [Chart.length_flagged]
  exact gives_lift _ (Checked.sub_eq (hchart.inside pass hpass).1)

theorem yields_bestTree (root : Symbol) :
    Yields (bestTree root) chart.flagged (chart.bestTree root) :=
  (gives_insidePass chart).bind_yields fun _ hpass =>
    .of_perform_eq ((perform_get _ _).trans (perform_bind_ok (gives_last hchart hpass)))
      (yields_bestTreeWithSpan hchart root 0 _)

theorem yields_bestTrees (root : Symbol) (count : Nat) :
    Yields (bestTrees root count) chart.flagged (chart.bestTrees root count) :=
  (gives_insidePass chart).bind_yields fun _ hpass =>
    .of_perform_eq ((perform_get _ _).trans (perform_bind_ok (gives_last hchart hpass)))
      (yields_bestTreesWithSpan hchart root 0 _ count)

theorem yields_bestTreesForPrior (prior : SymbolWeights S) (count : Nat) :
    Yields (bestTreesForPrior prior count) chart.flagged
      (chart.bestTreesForPrior prior count) := by
  refine (gives_requireSelective chart).bind_yields fun _ _ =>
    (gives_insidePass chart).bind_yields fun pass hpass =>
      (gives_requireCount chart count).bind_yields fun count_pos _ => yields_lift ?_
  obtain ⟨hpos, hlength, model, hrun⟩ := hchart.inside pass hpass
  rw [← hlength] at hpos
  rw [Chart.inside_flagged hpass, hrun]
  exact Checked.yields_bestTreesForPrior model _ _ pass.input hpos count_pos.down prior

end Readers

/-! ## Handling requests -/

section Requests

variable [Scalar K]

def answer : Reading S → InPlace S (Reply K S)
  | .inside first last => .weights <$> inside first last
  | .outside first last => .weights <$> outside first last
  | .marginal first last => .weights <$> marginal first last
  | .partition => .weight <$> partition
  | .rootWeights => .weights <$> rootWeights
  | .binaryExpectations => .uses <$> binaryExpectations
  | .terminalExpectations => .uses <$> terminalExpectations
  | .normalizedExpectations => .counts <$> normalizedExpectations
  | .backpointers symbol first last => .backpointers <$> backpointers symbol first last
  | .bestTree root => .tree <$> bestTree root
  | .bestTreeWithSpan root first last => .tree <$> bestTreeWithSpan root first last
  | .bestTrees root count => .trees <$> bestTrees root count
  | .bestTreesWithSpan root first last count =>
      .trees <$> bestTreesWithSpan root first last count
  | .bestTreesForPrior prior count => .trees <$> bestTreesForPrior prior count

def handle : Request K S → InPlace S (Reply K S)
  | .fillInside model input => (fun _ => .filled) <$> fillInside model input
  | .fillOutside model prior => (fun _ => .filled) <$> fillOutside model prior
  | .read reading => answer reading

theorem Gives.map {method : InPlace S α} {chart : FlaggedChart S}
    {result : Except ChartError α} (h : method.Gives chart result) (f : α → β) :
    (f <$> method).Gives chart (f <$> result) := by
  rw [← bind_pure_comp, ← bind_pure_comp]
  exact h.bind_pure f

omit [Scalar K] in
theorem Yields.map {method : InPlace S α} {chart : FlaggedChart S}
    {result : Except ChartError α} (h : method.Yields chart result) (f : α → β) :
    (f <$> method).Yields chart (f <$> result) := by
  rcases h with hgives | ⟨hok, hsortable, hbreak⟩
  · exact .inl (hgives.map f)
  · exact .inr ⟨(Chart.isOk_map f result).trans hok, hsortable,
      (breaksOff_map_iff f).mpr hbreak⟩

section Answers

variable {chart : Chart S} (hchart : chart.WellFilled)

include hchart

theorem gives_answer {reading : Reading S} (hplain : reading.extracts = false) :
    (answer reading).Gives chart.flagged (chart.answer reading) := by
  cases reading with
  | inside first last => exact (gives_inside hchart first last).map _
  | outside first last => exact (gives_outside hchart first last).map _
  | marginal first last => exact (gives_marginal hchart first last).map _
  | partition => exact ((gives_outsidePass chart).bind_pure _).map _
  | rootWeights => exact ((gives_outsidePass chart).bind_pure _).map _
  | binaryExpectations =>
      exact (((gives_outsidePass chart).bind_pure _).bind_pure _).map _
  | terminalExpectations =>
      exact (((gives_outsidePass chart).bind_pure _).bind_pure _).map _
  | normalizedExpectations => exact ((gives_outsidePass chart).bind_pure _).map _
  | backpointers | bestTree | bestTreeWithSpan | bestTrees | bestTreesWithSpan |
    bestTreesForPrior => contradiction

theorem yields_answer (reading : Reading S) :
    (answer reading).Yields chart.flagged (chart.answer reading) := by
  cases hreading : reading.extracts with
  | false => exact .inl (gives_answer hchart hreading)
  | true =>
      cases reading with
      | backpointers symbol first last =>
          exact (yields_backpointers hchart symbol first last).map _
      | bestTree root => exact (yields_bestTree hchart root).map _
      | bestTreeWithSpan root first last =>
          exact (yields_bestTreeWithSpan hchart root first last).map _
      | bestTrees root count => exact (yields_bestTrees hchart root count).map _
      | bestTreesWithSpan root first last count =>
          exact (yields_bestTreesWithSpan hchart root first last count).map _
      | bestTreesForPrior prior count =>
          exact (yields_bestTreesForPrior hchart prior count).map _
      | _ => contradiction

end Answers

omit [Scalar K] in
theorem perform_adopt {method : InPlace S Unit} {chart : Chart S}
    {result : Except ChartError (Chart S)} (h : method.Fills chart result) :
    ((fun _ => .filled) <$> method : InPlace S (Reply K S)).perform chart.flagged =
      .ok ((chart.adopt (K := K) result).1, (chart.adopt (K := K) result).2.flagged) := by
  cases result with
  | ok filled => exact perform_bind_ok h
  | error e => exact perform_bind_error h

/-- The flagged form of a chart handles a request as the chart does.  If not, the chart would
have answered a reader that sorts, its entries are not all fit for that, and the flagged form
breaks off. -/
theorem handle_cases {chart : Chart S} (hchart : chart.WellFilled) (request : Request K S) :
    (handle request).perform chart.flagged =
        .ok ((chart.handle request).1, (chart.handle request).2.flagged) ∨
      (∃ reading, request = .read reading ∧ reading.extracts = true) ∧
        (chart.handle request).1.isOk = true ∧ ¬ chart.flagged.inside.Sortable ∧
          (handle request).BreaksOff chart.flagged := by
  cases request with
  | fillInside model input => exact .inl (perform_adopt (fills_fillInside chart model input))
  | fillOutside model prior =>
      exact .inl (perform_adopt (fills_fillOutside hchart model prior))
  | read reading =>
      cases hreading : reading.extracts with
      | false => exact .inl (gives_answer hchart hreading)
      | true =>
          exact (yields_answer hchart reading).imp_right fun hbreak =>
            ⟨⟨reading, rfl, hreading⟩, hbreak⟩

end Requests

/-- Nothing changes where a method is not performed because every entry is fit to be sorted. -/
theorem ask_eq {chart : Chart S} {plain : Except ChartError α} {method : InPlace S α}
    (h : method.Yields chart.flagged plain) :
    chart.ask plain method = Prod.fst <$> method.perform chart.flagged := by
  rw [Chart.ask]
  split
  · rename_i hsortable
    have hgives := h.resolve_right fun hbreak => hbreak.2.1 hsortable
    rw [hgives]
    rfl
  · rfl

/-- No method is performed where weights are in a total order. -/
theorem ask_eq_ok [TotallyRanked S] (chart : Chart S) (plain : Except ChartError α)
    (method : InPlace S α) : chart.ask plain method = .ok plain :=
  if_pos (InsidePass.sortable _)

end InPlace

end WeightedParsing
