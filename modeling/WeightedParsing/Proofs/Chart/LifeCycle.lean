import WeightedParsing.Proofs.Checked.InPlace

/-!
# The life cycle of a chart

A chart is asked to be filled and to be read, in any order and any number of times.  Each
pass runs once, the outside pass after the inside pass, and a reader answers when the pass
that it needs has run and its arguments are in range.  Whatever a chart was asked before,
a request that it refuses leaves it as it was.

A single fault can be met.  Reading back-pointers or trees sorts, and where weights make no
ranking a reader that should answer may break off.  Weights in a total order rank, and so do
machine numbers as long as no product of zero and infinity comes up: finite weights are not
enough.
-/

namespace WeightedParsing

variable {K S : Type} [WeightAlgebra K S] [Scalar K]

/-! ## Serving requests -/

/-- A chart and what it replied to the requests so far. -/
structure Session (C K S : Type) where
  chart : C
  log : List (Request K S × Except ChartError (Reply K S))

namespace Session

/-- Whether a request of a kind was granted. -/
def Granted {C : Type} (session : Session C K S) (kind : Request K S → Bool) : Prop :=
  ∃ entry ∈ session.log, kind entry.1 = true ∧ entry.2.isOk = true

def serve (session : Session (Chart S) K S) (request : Request K S) :
    Session (Chart S) K S :=
  let (reply, chart) := session.chart.handle request
  ⟨chart, session.log ++ [(request, reply)]⟩

def serveAll (session : Session (Chart S) K S) (requests : List (Request K S)) :
    Session (Chart S) K S :=
  requests.foldl serve session

def flagged (session : Session (Chart S) K S) : Session (FlaggedChart S) K S :=
  ⟨session.chart.flagged, session.log⟩

end Session

namespace InPlace

def serve (session : Session (FlaggedChart S) K S) (request : Request K S) :
    Checked (Session (FlaggedChart S) K S) := do
  let (reply, chart) ← (handle request).perform session.chart
  return ⟨chart, session.log ++ [(request, reply)]⟩

def serveAll (session : Session (FlaggedChart S) K S) (requests : List (Request K S)) :
    Checked (Session (FlaggedChart S) K S) :=
  requests.foldlM serve session

/-- Whether the chart of a session grants a request. -/
def Grants (session : Session (FlaggedChart S) K S) (request : Request K S) : Prop :=
  ∃ reply after, (handle request).perform session.chart = .ok (.ok reply, after)

/-- Whether the chart of a session breaks off a request at a sort. -/
def BreaksOffAt (session : Session (FlaggedChart S) K S) (request : Request K S) : Prop :=
  (handle request).BreaksOff session.chart

theorem serve_of_breaksOff {session : Session (FlaggedChart S) K S} {request : Request K S}
    (h : BreaksOffAt session request) :
    serve session request = .error (.misuse .noTotalOrder) := by
  rw [serve, h]
  rfl

end InPlace

namespace Session

/-- The pass that a reading needs was granted, derivations can be told apart if that matters,
and the arguments are in range. -/
def Admits {C : Type} (session : Session C K S) (length width : Nat) (reading : Reading S) :
    Prop :=
  session.Granted (if reading.needsOutside then Request.fillsOutside else Request.fillsInside) ∧
    (reading.extracts = true → WeightAlgebra.selective S = true) ∧
    (∀ span ∈ reading.span?, span.1 ≤ span.2 ∧ span.2 < length) ∧
    ∀ count ∈ reading.count?, 1 ≤ count ∧ count ≤ width

/-- What holds of a session with a chart of a length and a beam width. -/
structure Sound (length width : Nat) (session : Session (Chart S) K S) : Prop where
  length_eq : session.chart.length = length
  beamWidth_eq : session.chart.beamWidth = width
  wellFilled : session.chart.WellFilled (K := K)
  inside_iff : session.chart.insideCalculated = true ↔ session.Granted Request.fillsInside
  outside_iff : session.chart.outsideCalculated = true ↔ session.Granted Request.fillsOutside

theorem granted_serve_iff (session : Session (Chart S) K S) (request : Request K S)
    (kind : Request K S → Bool) :
    (session.serve request).Granted kind ↔
      session.Granted kind ∨
        (kind request = true ∧ (session.chart.handle request).1.isOk = true) := by
  simp only [Granted, serve, List.mem_append, List.mem_singleton, or_and_right, exists_or,
    exists_eq_left]

theorem requests_serveAll (session : Session (Chart S) K S) (requests : List (Request K S)) :
    (session.serveAll requests).log.map Prod.fst = session.log.map Prod.fst ++ requests := by
  induction requests generalizing session with
  | nil => exact (List.append_nil _).symm
  | cons request rest ih =>
      have hserve : (session.serve request).log.map Prod.fst =
          session.log.map Prod.fst ++ [request] := List.map_append
      rw [serveAll, List.foldl_cons]
      refine (ih (session.serve request)).trans ?_
      rw [hserve, List.append_assoc]
      rfl

variable {length width : Nat} {session : Session (Chart S) K S}

theorem inPlace_serve {request : Request K S}
    (h : (InPlace.handle request).perform session.flagged.chart =
      .ok ((session.chart.handle request).1, (session.chart.handle request).2.flagged)) :
    InPlace.serve session.flagged request = .ok (session.serve request).flagged := by
  rw [InPlace.serve, h]
  rfl

theorem Sound.serve (h : session.Sound length width) (request : Request K S) :
    (session.serve request).Sound length width where
  length_eq := (session.chart.length_handle request).1.trans h.length_eq
  beamWidth_eq := (session.chart.length_handle request).2.trans h.beamWidth_eq
  wellFilled := h.wellFilled.handle request
  inside_iff := by
    rw [granted_serve_iff, ← h.inside_iff]
    exact session.chart.insideCalculated_handle_iff request
  outside_iff := by
    rw [granted_serve_iff, ← h.outside_iff]
    exact session.chart.outsideCalculated_handle_iff request

theorem Sound.serveAll (h : session.Sound length width) (requests : List (Request K S)) :
    (session.serveAll requests).Sound length width := by
  induction requests generalizing session with
  | nil => exact h
  | cons request rest ih => exact ih (h.serve request)

theorem sound_blank (length : Nat) {width : Nat} (hwidth : 0 < width) :
    (⟨.blank length width hwidth, []⟩ : Session (Chart S) K S).Sound length width where
  length_eq := rfl
  beamWidth_eq := rfl
  wellFilled := ⟨fun _ h => (nomatch h), fun _ h => (nomatch h)⟩
  inside_iff := iff_of_false (fun h => nomatch h) fun ⟨_, hentry, _⟩ => nomatch hentry
  outside_iff := iff_of_false (fun h => nomatch h) fun ⟨_, hentry, _⟩ => nomatch hentry

/-- The rules that a chart of a length and a beam width obeys, whatever it is asked next.  A
reading that is admitted is granted, or it sorts entries that are not fit for it and breaks
off; no other request meets a fault, and no other fault is met. -/
structure Obeys (length width : Nat) (session : Session (FlaggedChart S) K S) : Prop where
  error_keeps : ∀ request e after,
    (InPlace.handle request).perform session.chart = .ok (.error e, after) →
      after = session.chart
  fault_sorts : ∀ request fault,
    (InPlace.handle request).perform session.chart = .error fault →
      fault = .misuse .noTotalOrder ∧ ¬ session.chart.inside.Sortable ∧
        ∃ reading, request = .read reading ∧ reading.extracts = true
  grants_fillInside_iff : ∀ (model : Model K) (input : List Symbol),
    InPlace.Grants session (.fillInside model input) ↔
      ¬ session.Granted Request.fillsInside ∧ input ≠ [] ∧ input.length = length
  grants_fillOutside_iff : ∀ (model : Model K) (prior : RootPrior K),
    InPlace.Grants session (.fillOutside model prior) ↔
      session.Granted Request.fillsInside ∧ ¬ session.Granted Request.fillsOutside
  grants_read_iff : ∀ reading : Reading S,
    InPlace.Grants session (.read reading) ∨ InPlace.BreaksOffAt session (.read reading) ↔
      session.Admits length width reading
  breaksOff_backpointers_iff : ∀ symbol first last,
    InPlace.BreaksOffAt session (.read (.backpointers symbol first last)) ↔
      session.Admits length width (.backpointers symbol first last) ∧
        ¬ (session.chart.inside.cells.get first last).Sortable symbol
  insideCalculated_iff :
    session.chart.insideCalculated = true ↔ session.Granted Request.fillsInside
  outsideCalculated_iff :
    session.chart.outsideCalculated = true ↔ session.Granted Request.fillsOutside
  inside_of_outside :
    session.chart.outsideCalculated = true → session.chart.insideCalculated = true
  filled_of_inside : session.chart.insideCalculated = true →
    1 ≤ length ∧ session.chart.terminals.length = length

section Sound

variable (h : session.Sound length width)

include h

theorem Sound.handle_cases (request : Request K S) :
    (InPlace.handle request).perform session.flagged.chart =
        .ok ((session.chart.handle request).1, (session.chart.handle request).2.flagged) ∨
      (∃ reading, request = .read reading ∧ reading.extracts = true) ∧
        (session.chart.handle request).1.isOk = true ∧
          ¬ session.flagged.chart.inside.Sortable ∧
            InPlace.BreaksOffAt session.flagged request :=
  InPlace.handle_cases h.wellFilled request

/-- Requests are served until one breaks off. -/
theorem Sound.inPlace_serveAll (requests : List (Request K S)) :
    ∃ served rest, served ++ rest = requests ∧
      InPlace.serveAll session.flagged served = .ok (session.serveAll served).flagged ∧
        ∀ request ∈ rest.head?,
          InPlace.BreaksOffAt (session.serveAll served).flagged request := by
  induction requests generalizing session with
  | nil => exact ⟨[], [], rfl, rfl, fun _ hrequest => nomatch hrequest⟩
  | cons request requests ih =>
      rcases h.handle_cases request with hperform | ⟨_, _, _, hbreak⟩
      · obtain ⟨served, rest, happend, hserved, hrest⟩ := ih (h.serve request)
        refine ⟨request :: served, rest, congrArg (request :: ·) happend, ?_, hrest⟩
        rw [InPlace.serveAll, List.foldlM_cons, inPlace_serve hperform]
        exact hserved
      · refine ⟨[], request :: requests, rfl, rfl, ?_⟩
        rintro _ ⟨⟩
        exact hbreak

theorem Sound.fault_sorts {request : Request K S} {fault : Fault}
    (hfault : (InPlace.handle request).perform session.flagged.chart = .error fault) :
    fault = .misuse .noTotalOrder ∧ ¬ session.flagged.chart.inside.Sortable ∧
      ∃ reading, request = .read reading ∧ reading.extracts = true := by
  rcases h.handle_cases request with hperform | ⟨hreading, _, hsortable, hbreak⟩
  · rw [hperform] at hfault
    contradiction
  · rw [InPlace.BreaksOffAt, InPlace.BreaksOff, hfault] at hbreak
    exact ⟨Except.error.inj hbreak, hsortable, hreading⟩

theorem Sound.grants_or_breaksOff_iff (request : Request K S) :
    InPlace.Grants session.flagged request ∨ InPlace.BreaksOffAt session.flagged request ↔
      (session.chart.handle request).1.isOk = true := by
  rcases h.handle_cases request with hperform | ⟨_, hok, _, hbreak⟩
  · rw [InPlace.Grants, InPlace.BreaksOffAt, InPlace.BreaksOff, hperform]
    cases session.chart.handle request with
    | mk reply after => cases reply <;> simp [Except.isOk, Except.toBool]
  · exact iff_of_true (.inr hbreak) hok

theorem Sound.grants_iff (request : Request K S) (hfills : ∀ reading, request ≠ .read reading) :
    InPlace.Grants session.flagged request ↔ (session.chart.handle request).1.isOk = true := by
  rw [← h.grants_or_breaksOff_iff]
  refine (or_iff_left fun hbreak => ?_).symm
  obtain ⟨_, _, reading, hread, _⟩ := h.fault_sorts hbreak
  exact hfills reading hread

theorem Sound.isOk_answer_iff (reading : Reading S) :
    (session.chart.answer reading).isOk = true ↔ session.Admits length width reading := by
  have hpos := fun hinside => (h.wellFilled.length_terminals hinside).1
  have hran : (if reading.needsOutside then session.chart.outsideCalculated
      else session.chart.insideCalculated) = true ↔
        session.Granted
          (if reading.needsOutside then Request.fillsOutside else Request.fillsInside) := by
    split
    · exact h.outside_iff
    · exact h.inside_iff
  rw [Chart.isOk_answer_iff _ hpos, Chart.Admits, hran, h.length_eq, h.beamWidth_eq]
  rfl

theorem Sound.obeys : session.flagged.Obeys length width where
  error_keeps := by
    intro request e after herror
    rcases h.handle_cases request with hperform | ⟨_, _, _, hbreak⟩
    · rw [hperform, Except.ok.injEq, Prod.mk.injEq] at herror
      rw [← herror.2, session.chart.handle_error herror.1]
      rfl
    · rw [hbreak] at herror
      contradiction
  fault_sorts _ _ hfault := h.fault_sorts hfault
  grants_fillInside_iff := by
    intro model input
    rw [h.grants_iff (.fillInside model input) (by simp), Chart.handle, Chart.isOk_adopt,
      Chart.isOk_fillInside_iff, h.length_eq, ← Bool.not_eq_true, h.inside_iff]
    rfl
  grants_fillOutside_iff := by
    intro model prior
    rw [h.grants_iff (.fillOutside model prior) (by simp), Chart.handle, Chart.isOk_adopt,
      Chart.isOk_fillOutside_iff, ← Bool.not_eq_true, h.inside_iff, h.outside_iff]
    rfl
  grants_read_iff reading :=
    (h.grants_or_breaksOff_iff (.read reading)).trans (h.isOk_answer_iff reading)
  breaksOff_backpointers_iff := by
    intro symbol first last
    have hbreak := InPlace.breaksOff_backpointers_iff h.wellFilled symbol first last
    rw [← Chart.isOk_map (Reply.backpointers (K := K))] at hbreak
    exact ((InPlace.breaksOff_map_iff _).trans hbreak).trans
      (and_congr_left' (h.isOk_answer_iff (.backpointers symbol first last)))
  insideCalculated_iff := by
    rw [flagged, Chart.insideCalculated_flagged]
    exact h.inside_iff
  outsideCalculated_iff := by
    rw [flagged, Chart.outsideCalculated_flagged]
    exact h.outside_iff
  inside_of_outside := by
    rw [flagged, Chart.outsideCalculated_flagged, Chart.insideCalculated_flagged]
    exact session.chart.insideCalculated_of_outsideCalculated
  filled_of_inside := by
    rw [flagged, Chart.insideCalculated_flagged, Chart.terminals_flagged, ← h.length_eq]
    exact h.wellFilled.length_terminals

end Sound

section TotallyRanked

variable [TotallyRanked S]

section Obeys

variable {session : Session (FlaggedChart S) K S} (h : session.Obeys length width)

include h

theorem Obeys.not_breaksOff (request : Request K S) : ¬ InPlace.BreaksOffAt session request :=
  fun hbreak => (h.fault_sorts request _ hbreak).2.1 (InsidePass.sortable _)

/-- Where weights are in a total order, a reader answers just when it is admitted. -/
theorem Obeys.grants_iff_admits (reading : Reading S) :
    InPlace.Grants session (.read reading) ↔ session.Admits length width reading :=
  (or_iff_left (h.not_breaksOff _)).symm.trans (h.grants_read_iff reading)

theorem Obeys.eq_nil_of_breaksOff {rest : List (Request K S)}
    (hrest : ∀ request ∈ rest.head?, InPlace.BreaksOffAt session request) : rest = [] := by
  cases rest with
  | nil => rfl
  | cons request rest => exact absurd (hrest request rfl) (h.not_breaksOff request)

end Obeys

/-- Where weights are in a total order, every request is served. -/
theorem Sound.serveAll_eq (h : session.Sound length width) (requests : List (Request K S)) :
    InPlace.serveAll session.flagged requests = .ok (session.serveAll requests).flagged := by
  obtain ⟨served, rest, happend, hserved, hrest⟩ := h.inPlace_serveAll requests
  rw [(h.serveAll served).obeys.eq_nil_of_breaksOff hrest, List.append_nil] at happend
  rw [← happend]
  exact hserved

end TotallyRanked

end Session

namespace Chart

/-- Requests to a chart are served until one breaks off at a sort.  Whatever was served leaves
a chart that obeys the rules of its life cycle. -/
theorem life_cycle_enforced {width : Nat} (hwidth : 0 < width) (length : Nat)
    (requests : List (Request K S)) :
    ∃ chart : Chart S, withBeamWidth length width = .ok chart ∧
      ∃ (served rest : List (Request K S)) (session : Session (FlaggedChart S) K S),
        served ++ rest = requests ∧
          InPlace.serveAll ⟨chart.flagged, []⟩ served = .ok session ∧
          session = (Session.serveAll ⟨chart, []⟩ served).flagged ∧
          session.log.map Prod.fst = served ∧ session.Obeys length width ∧
          ∀ request ∈ rest.head?, InPlace.BreaksOffAt session request := by
  have hblank := Session.sound_blank (K := K) (S := S) length hwidth
  obtain ⟨served, rest, happend, hserved, hrest⟩ := hblank.inPlace_serveAll requests
  refine ⟨_, dif_pos hwidth, served, rest, _, happend, hserved, rfl, ?_,
    (hblank.serveAll served).obeys, hrest⟩
  exact Session.requests_serveAll _ _

/-- A chart of three words refuses to be read before the inside pass and to be filled with
two words.  Filled with three, it gives two trees but not three. -/
theorem life_cycle_enforced_three_words :
    ∃ chart : Chart (MaxProduct Nat), withBeamWidth 3 2 = .ok chart ∧
      ∃ session : Session (FlaggedChart (MaxProduct Nat)) Nat (MaxProduct Nat),
        InPlace.serveAll ⟨chart.flagged, []⟩
            [.read (.bestTree ⟨0⟩),
              .fillInside ⟨.scan [⟨⟨0⟩, ⟨0⟩, ⟨0⟩, none⟩] [⟨⟨0⟩, [⟨1⟩], none⟩], fun _ => 1⟩
                [⟨1⟩, ⟨1⟩],
              .fillInside ⟨.scan [⟨⟨0⟩, ⟨0⟩, ⟨0⟩, none⟩] [⟨⟨0⟩, [⟨1⟩], none⟩], fun _ => 1⟩
                [⟨1⟩, ⟨1⟩, ⟨1⟩]] = .ok session ∧
          session.log.map (fun entry => entry.2.isOk) = [false, false, true] ∧
          InPlace.Grants session (.read (.bestTrees ⟨0⟩ 2)) ∧
          ¬ InPlace.Grants session (.read (.bestTrees ⟨0⟩ 3)) := by
  obtain ⟨chart, hchart, served, rest, session, happend, hserve, hplain, _, hobeys, hrest⟩ :=
    life_cycle_enforced (K := Nat) (S := MaxProduct Nat) (show 0 < 2 by decide) 3
      [.read (.bestTree ⟨0⟩),
        .fillInside ⟨.scan [⟨⟨0⟩, ⟨0⟩, ⟨0⟩, none⟩] [⟨⟨0⟩, [⟨1⟩], none⟩], fun _ => 1⟩
          [⟨1⟩, ⟨1⟩],
        .fillInside ⟨.scan [⟨⟨0⟩, ⟨0⟩, ⟨0⟩, none⟩] [⟨⟨0⟩, [⟨1⟩], none⟩], fun _ => 1⟩
          [⟨1⟩, ⟨1⟩, ⟨1⟩]]
  rw [hobeys.eq_nil_of_breaksOff hrest, List.append_nil] at happend
  subst happend
  cases hchart
  subst hplain
  refine ⟨_, rfl, _, hserve, rfl, ?_, ?_⟩
  · refine (hobeys.grants_iff_admits _).mpr ⟨?_, fun _ => rfl, by simp, by simp⟩
    exact ⟨_, .tail _ (.tail _ (.head _)), rfl, rfl⟩
  · intro hgrants
    obtain ⟨_, _, _, hcount⟩ := (hobeys.grants_iff_admits _).mp hgrants
    exact absurd (hcount 3 rfl).2 (by decide)

/-- Finite weights over three words.  The symbol `0` has ten terminal rules for all of them,
and eleven binary rules over a first word that makes most products zero and two words whose
product is infinite.  Most of its binary back-pointers weigh zero times infinity. -/
def overflowingModel : Model Float where
  policy := .scan
    (⟨⟨4⟩, ⟨2⟩, ⟨3⟩, none⟩ ::
      (List.range 11).map fun i => ⟨⟨0⟩, ⟨1⟩, ⟨4⟩, some ⟨i⟩⟩)
    ([⟨⟨1⟩, [⟨5⟩], none⟩, ⟨⟨2⟩, [⟨6⟩], none⟩, ⟨⟨3⟩, [⟨7⟩], none⟩] ++
      (List.range 10).map fun i => ⟨⟨0⟩, [⟨5⟩, ⟨6⟩, ⟨7⟩], some ⟨i⟩⟩)
  ruleWeight
    | .terminal ⟨⟨0⟩, _, ruleType⟩ =>
        if ruleType = some ⟨0⟩ then 1 else if ruleType = some ⟨2⟩ then 2 else 3
    | .terminal ⟨⟨1⟩, _, _⟩ => 1e-200
    | .terminal _ => 1e200
    | .binary ⟨⟨0⟩, _, _, ruleType⟩ => if ruleType = some ⟨10⟩ then 1 else 1e-200
    | .binary _ => 1

theorem not_sortable_overflowing :
    ¬ ((InsidePass.run overflowingModel 32 (by decide) [⟨5⟩, ⟨6⟩, ⟨7⟩] :
      InsidePass (MaxProduct Float)).cells.get 0 2).Sortable ⟨0⟩ := by
  decide +kernel

/-- A chart that was filled breaks off when its back-pointers are read, although none of the
weights that it was filled with is negative, infinite or undefined. -/
theorem overflowing_chart_breaks_off :
    ∃ chart : Chart (MaxProduct Float), withBeamWidth 3 32 = .ok chart ∧
      InPlace.serveAll (K := Float) ⟨chart.flagged, []⟩
          [.fillInside overflowingModel [⟨5⟩, ⟨6⟩, ⟨7⟩], .read (.backpointers ⟨0⟩ 0 2)] =
        .error (.misuse .noTotalOrder) := by
  have hblank := Session.sound_blank (K := Float) (S := MaxProduct Float) 3
    (show 0 < 32 by decide)
  have hfilled := hblank.serve (.fillInside overflowingModel [⟨5⟩, ⟨6⟩, ⟨7⟩])
  refine ⟨_, dif_pos (by decide), ?_⟩
  have hbreak := (hfilled.obeys.breaksOff_backpointers_iff ⟨0⟩ 0 2).mpr
    ⟨⟨⟨_, .head _, rfl, rfl⟩, fun _ => rfl, by simp, by simp⟩, not_sortable_overflowing⟩
  rcases hblank.handle_cases (.fillInside overflowingModel [⟨5⟩, ⟨6⟩, ⟨7⟩]) with
    hperform | ⟨⟨_, hread, _⟩, _⟩
  · rw [InPlace.serveAll, List.foldlM_cons]
    refine (congrArg (· >>= _) (Session.inPlace_serve hperform)).trans ?_
    rw [Checked.ok_bind, List.foldlM_cons, InPlace.serve_of_breaksOff hbreak]
    rfl
  · exact nomatch hread

end Chart

end WeightedParsing
