import Mathlib.Algebra.Group.Prod
import Mathlib.Data.UInt
import LoadForge.Telemetry.Timeline

namespace LoadForge.Statistics

open Framework Telemetry

/-- A point at `startNs` is in, one at `endNs` is not. -/
structure Window where
  startNs : Int
  endNs : Int
  deriving DecidableEq

def kClosingMargin : Int := 1

/-- From a run's first round to, and including, its last. -/
def runWindow (firstRoundNs lastRoundNs : Int) : Window :=
  ⟨firstRoundNs, lastRoundNs + kClosingMargin⟩

/-- From a phase's mark to just past the next mark, or past the last round. -/
def phaseWindow (marks : List PhaseMark) (index : Nat) (lastRoundNs : Int) : Window :=
  let start (at_ : Nat) : Int := (marks[at_]?.map (·.startNs)).getD 0
  ⟨start index,
    (if index + 1 = marks.length then lastRoundNs else start (index + 1)) + kClosingMargin⟩

structure PhaseWindow where
  label : String
  window : Window
  deriving DecidableEq

def phaseWindows (marks : List PhaseMark) (endNs : Int) : List PhaseWindow :=
  (List.range marks.length).map fun index =>
    ⟨(marks[index]?.map (·.label)).getD "", phaseWindow marks index endNs⟩

/-- A counter over a window; its rate is `delta` over `spanNs`. -/
structure CounterSummary where
  samples : Nat := 0
  delta : UInt64 := 0
  spanNs : Int := 0
  resets : Nat := 0
  deriving DecidableEq

/-- A gauge's statistics are functions of the readings kept here. -/
inductive Summary
  | unavailable (why : Unavailable)
  | gauge (readings : List (Int × UInt64))
  | counter (summary : CounterSummary)
  deriving DecidableEq

structure MetricSummary where
  metric : Metric
  value : Summary
  unavailableSamples : Nat
  deriving DecidableEq

structure LoadSignature where
  window : Window := ⟨0, 0⟩
  metrics : List MetricSummary := []
  deriving DecidableEq

/-- What the summarizer holds between two points of a series. -/
structure Scan where
  gauges : List (Int × UInt64) := []
  counter : CounterSummary := {}
  previous : Option (Int × UInt64) := none
  lastUnavailable : Option Unavailable := none
  unavailableSamples : Nat := 0

/-- A counter reading against the one before it, when no gap is between them. -/
def CounterSummary.take (c : CounterSummary) (previous : Option (Int × UInt64)) (timeNs : Int)
    (raw : UInt64) (modulus : Option UInt64) : CounterSummary :=
  let c := { c with samples := c.samples + 1 }
  match previous with
  | none => c
  | some (before, seen) =>
    match counterAdvance seen raw modulus with
    | some advance => { c with delta := c.delta + advance, spanNs := c.spanNs + (timeNs - before) }
    | none => { c with resets := c.resets + 1 }

def Scan.take (metric : Metric) (s : Scan) (p : Point) : Scan :=
  match p.reading with
  | .unavailable why =>
    { s with unavailableSamples := s.unavailableSamples + 1, lastUnavailable := some why,
             previous := none }
  | .gauge value =>
    if metric.kind = .kGauge then { s with gauges := s.gauges ++ [(p.timestampNs, value)] } else s
  | .counter raw =>
    if metric.kind = .kCounter then
      { s with counter := s.counter.take s.previous p.timestampNs raw metric.modulus,
               previous := some (p.timestampNs, raw) }
    else s

def nothingInWindow : Unavailable :=
  ⟨.kAbsent, "", "no sample in the window",
    "sample for longer, or more often, so that the window holds a reading"⟩

def summarizeSeries (metric : Metric) (points : List Point) : MetricSummary :=
  let s := points.foldl (Scan.take metric) {}
  { metric := metric
    value :=
      if s.gauges ≠ [] then .gauge s.gauges
      else if 0 < s.counter.samples then .counter s.counter
      else .unavailable (s.lastUnavailable.getD nothingInWindow)
    unavailableSamples := s.unavailableSamples }

structure StatisticsError where
  detail : String
  deriving DecidableEq

/-- One summary per series of the timeline, over the points the window holds. -/
def summarize (t : BoundedTimeline) (w : Window) : Except StatisticsError LoadSignature :=
  if w.endNs ≤ w.startNs then .error ⟨"the window ends no later than it starts"⟩
  else .ok ⟨w, t.series.map fun s =>
    summarizeSeries s.metric (s.points.between w.startNs w.endNs)⟩

/-- The advance a summary states; an absent counter states none. -/
def MetricSummary.delta (m : MetricSummary) : UInt64 :=
  match m.value with
  | .counter c => c.delta
  | _ => 0

def MetricSummary.resets (m : MetricSummary) : Nat :=
  match m.value with
  | .counter c => c.resets
  | _ => 0

def CounterSummary.moved (c : CounterSummary) : UInt64 × Nat := (c.delta, c.resets)

/-- How far a counter advanced from one point to the next, when that is known, or one reset. -/
def moved (metric : Metric) (p q : Point) : UInt64 × Nat :=
  match p.reading, q.reading with
  | .counter a, .counter b =>
    match counterAdvance a b metric.modulus with
    | some advance => (advance, 0)
    | none => (0, 1)
  | _, _ => 0

/-- The point a scan would compare the next reading with. -/
def Scan.before (s : Scan) : List Point :=
  s.previous.toList.map fun seen => ⟨seen.1, .counter seen.2⟩

variable (metric : Metric)

theorem pairSum_moved_cons_gap (t : Int) (why : Unavailable) (ps : List Point) :
    pairSum (moved metric) (⟨t, .unavailable why⟩ :: ps) = pairSum (moved metric) ps := by
  cases ps with
  | nil => rfl
  | cons p ps => simp [pairSum, moved]

theorem take_moved (c : CounterSummary) (previous : Option (Int × UInt64)) (t : Int) (raw : UInt64)
    (ps : List Point) :
    (c.take previous t raw metric.modulus).moved +
        pairSum (moved metric) (⟨t, .counter raw⟩ :: ps) =
      c.moved + pairSum (moved metric)
        ((previous.toList.map fun seen => ⟨seen.1, .counter seen.2⟩) ++
          ⟨t, .counter raw⟩ :: ps) := by
  cases previous with
  | none => simp [CounterSummary.take, CounterSummary.moved]
  | some seen =>
    simp only [CounterSummary.take, Option.toList_some, List.map_cons, List.map_nil,
      List.cons_append, List.nil_append, pairSum, moved]
    cases counterAdvance seen.2 raw metric.modulus with
    | none => simp [CounterSummary.moved, ← add_assoc]
    | some adv => simp [CounterSummary.moved, ← add_assoc]

theorem scan_moved (hk : metric.kind = .kCounter) (ps : List Point)
    (hsuits : ∀ p ∈ ps, kindMatches metric.kind p.reading = true) (s : Scan) :
    (ps.foldl (Scan.take metric) s).counter.moved =
      s.counter.moved + pairSum (moved metric) (s.before ++ ps) := by
  induction ps generalizing s with
  | nil =>
    cases hp : s.previous <;> simp [Scan.before, hp, pairSum]
  | cons p ps ih =>
    have hrest : ∀ q ∈ ps, kindMatches metric.kind q.reading = true :=
      fun q hq => hsuits q (by simp [hq])
    obtain ⟨t, reading⟩ := p
    rw [List.foldl_cons, ih hrest]
    cases reading with
    | unavailable why =>
      have hgap := pairSum_moved_cons_gap metric t why ps
      cases hp : s.previous with
      | none => simp [Scan.take, Scan.before, hp, hgap]
      | some seen => simp [Scan.take, Scan.before, hp, pairSum, moved, hgap]
    | gauge value =>
      have hbad := hsuits ⟨t, .gauge value⟩ (by simp)
      simp [kindMatches, hk] at hbad
    | counter raw =>
      have hstep := take_moved metric s.counter s.previous t raw ps
      simpa [Scan.take, Scan.before, hk] using hstep

theorem scan_gauges (hk : metric.kind = .kCounter) (ps : List Point) (s : Scan)
    (hs : s.gauges = []) : (ps.foldl (Scan.take metric) s).gauges = [] := by
  induction ps generalizing s with
  | nil => exact hs
  | cons p ps ih =>
    refine ih _ ?_
    unfold Scan.take
    cases p.reading <;> simp [hk, hs]

theorem take_samples (c : CounterSummary) (previous : Option (Int × UInt64)) (t : Int)
    (raw : UInt64) (modulus : Option UInt64) :
    (c.take previous t raw modulus).samples = c.samples + 1 := by
  unfold CounterSummary.take
  cases previous with
  | none => rfl
  | some seen => cases h : counterAdvance seen.2 raw modulus <;> simp [h]

theorem scan_moved_of_no_sample (ps : List Point) (s : Scan)
    (hs : s.counter.samples = 0 → s.counter.moved = 0) :
    (ps.foldl (Scan.take metric) s).counter.samples = 0 →
      (ps.foldl (Scan.take metric) s).counter.moved = 0 := by
  induction ps generalizing s with
  | nil => exact hs
  | cons p ps ih =>
    refine ih _ ?_
    obtain ⟨t, reading⟩ := p
    cases reading with
    | unavailable why => exact hs
    | gauge value =>
      by_cases hk : metric.kind = .kGauge <;> simpa [Scan.take, hk] using hs
    | counter raw =>
      by_cases hk : metric.kind = .kCounter
      · simp [Scan.take, hk, take_samples]
      · simpa [Scan.take, hk] using hs

theorem summarizeSeries_moved (hk : metric.kind = .kCounter) (ps : List Point)
    (hsuits : ∀ p ∈ ps, kindMatches metric.kind p.reading = true) :
    ((summarizeSeries metric ps).delta, (summarizeSeries metric ps).resets) =
      pairSum (moved metric) ps := by
  have hmoved := scan_moved metric hk ps hsuits {}
  have hgauges := scan_gauges metric hk ps {} rfl
  have hempty := scan_moved_of_no_sample metric ps {} (fun _ => rfl)
  have hstart : ({} : Scan).counter.moved + pairSum (moved metric) (({} : Scan).before ++ ps) =
      pairSum (moved metric) ps := zero_add _
  rw [hstart] at hmoved
  unfold MetricSummary.delta MetricSummary.resets summarizeSeries
  simp only [hgauges, ne_eq, not_true_eq_false, if_false]
  by_cases hsamples : 0 < (ps.foldl (Scan.take metric) {}).counter.samples
  · rw [if_pos hsamples]
    exact hmoved
  · rw [if_neg hsamples, ← hmoved, hempty (by omega)]
    rfl

end LoadForge.Statistics
