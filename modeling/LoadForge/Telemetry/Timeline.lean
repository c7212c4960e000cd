import LoadForge.Framework.Ascending

namespace LoadForge.Telemetry

open Framework List

inductive Kind
  | kGauge | kCounter
  deriving DecidableEq

inductive Scope
  | kMachine | kPackage | kCore | kCpu | kNumaNode | kMemoryController | kDimm | kDevice
  deriving DecidableEq

/-- One metric; a name, scope and index together say which series it is. -/
structure Metric where
  name : String
  kind : Kind := .kGauge
  scope : Scope := .kMachine
  scopeIndex : UInt32 := 0
  modulus : Option UInt64 := none
  deriving DecidableEq

def sameSeries (a b : Metric) : Bool :=
  a.name == b.name && a.scope == b.scope && a.scopeIndex == b.scopeIndex

inductive Availability
  | kPresent | kAbsent | kVanished | kDenied | kMalformed | kUnreadable
  deriving DecidableEq

structure Unavailable where
  kind : Availability := .kUnreadable
  path : String := ""
  detail : String := ""
  remediation : String := ""
  deriving DecidableEq

/-- A reading; a gauge's value is the bits of a double. -/
inductive Reading
  | unavailable (why : Unavailable)
  | gauge (value : UInt64)
  | counter (raw : UInt64)
  deriving DecidableEq

def kindMatches (kind : Kind) : Reading → Bool
  | .gauge _ => kind == .kGauge
  | .counter _ => kind == .kCounter
  | .unavailable _ => true

/-- How far a counter advanced, across at most one wrap. -/
def counterDelta (previous current : UInt64) (modulus : Option UInt64) : UInt64 :=
  match modulus with
  | some modulus => if previous ≤ current then current - previous else modulus - previous + current
  | none => current - previous

/-- The advance, or nothing across a reset: a step down without a modulus. -/
def counterAdvance (previous current : UInt64) (modulus : Option UInt64) : Option UInt64 :=
  if modulus = none ∧ current < previous then none
  else some (counterDelta previous current modulus)

structure Point where
  timestampNs : Int
  reading : Reading
  deriving DecidableEq

/-- What the machine was doing from `startNs` until the next mark. -/
structure PhaseMark where
  startNs : Int
  label : String
  deriving DecidableEq

inductive TimelineFault
  | kDuplicateSeries | kUnknownSeries | kOutOfOrder | kKindMismatch | kCapacity
  deriving DecidableEq

def TimelineFault.describe : TimelineFault → String
  | .kDuplicateSeries => "duplicate series"
  | .kUnknownSeries => "unknown series"
  | .kOutOfOrder => "out of order"
  | .kKindMismatch => "reading of the wrong kind"
  | .kCapacity => "capacity reached"

structure TimelineError where
  fault : TimelineFault
  detail : String
  deriving DecidableEq

/-- A metric and its points, in order of time and of the metric's kind. -/
structure Series where
  metric : Metric
  points : Ascending Point Point.timestampNs
  suits : ∀ p ∈ points.items, kindMatches metric.kind p.reading = true

def Series.times (s : Series) : List Int := s.points.items.map (·.timestampNs)

theorem Series.times_ascending (s : Series) : s.times.Pairwise (· < ·) :=
  pairwise_map.mpr s.points.ascending

def lastText (times : List Int) : String := toString (times.getLastD 0)

/-- A point at the end of a series, or why the series refuses it. -/
def Series.append (s : Series) (point : Point) (full : Bool) (capacity : Nat) :
    Except TimelineError Series :=
  if hf : s.points.follows point = true then
    if hk : kindMatches s.metric.kind point.reading = true then
      if full then .error ⟨.kCapacity, "the timeline holds " ++ toString capacity ++ " points"⟩
      else
        .ok ⟨s.metric, s.points.push point hf, by
          intro p hp
          rcases List.mem_append.mp hp with hp | hp
          · exact s.suits p hp
          · rw [List.mem_singleton.mp hp]; exact hk⟩
    else .error ⟨.kKindMismatch, "the reading does not suit " ++ s.metric.name⟩
  else
    .error ⟨.kOutOfOrder, "timestamp " ++ toString point.timestampNs ++ " is not later than " ++
      lastText (s.points.items.map (·.timestampNs))⟩

theorem Series.append_ok (s s' : Series) (point : Point) (full : Bool) (capacity : Nat)
    (ha : s.append point full capacity = .ok s') :
    s'.metric = s.metric ∧ s'.times = s.times ++ [point.timestampNs] := by
  unfold Series.append at ha
  split_ifs at ha
  cases ha
  exact ⟨rfl, by simp [Series.times]⟩

/-- The timeline of a run: bounded in points, with its phase marks in order of time. -/
structure BoundedTimeline where
  capacity : Nat
  size : Nat := 0
  series : List Series := []
  phases : Ascending PhaseMark PhaseMark.startNs := .empty

namespace BoundedTimeline

def addSeries (t : BoundedTimeline) (metric : Metric) :
    Except TimelineError (Nat × BoundedTimeline) :=
  if t.series.any fun existing => sameSeries existing.metric metric then
    .error ⟨.kDuplicateSeries, "a series named " ++ metric.name ++ " already exists"⟩
  else
    .ok (t.series.length, { t with series := t.series ++ [⟨metric, .empty, by simp⟩] })

def append (t : BoundedTimeline) (id : Nat) (point : Point) :
    Except TimelineError BoundedTimeline :=
  match t.series[id]? with
  | none => .error ⟨.kUnknownSeries, "no series " ++ toString id⟩
  | some target =>
    match target.append point (decide (t.capacity ≤ t.size)) t.capacity with
    | .error e => .error e
    | .ok grown => .ok { t with series := t.series.set id grown, size := t.size + 1 }

theorem append_times (t t' : BoundedTimeline) (id : Nat) (point : Point)
    (ha : t.append id point = .ok t') (index : Nat) :
    t'.series[index]?.map Series.times =
      t.series[index]?.map fun s =>
        s.times ++ if index = id then [point.timestampNs] else [] := by
  unfold append at ha
  split at ha
  · cases ha
  · rename_i target htarget
    split at ha
    · cases ha
    · rename_i grown hgrown
      cases ha
      have htimes := (target.append_ok grown point _ _ hgrown).2
      by_cases hid : index = id
      · subst hid
        have hlt : index < t.series.length := (List.getElem?_eq_some_iff.mp htarget).1
        simp [getElem?_set_self hlt, htarget, htimes]
      · simp [getElem?_set_ne (Ne.symm hid), hid]

def markPhase (t : BoundedTimeline) (mark : PhaseMark) : Except TimelineError BoundedTimeline :=
  if hf : t.phases.follows mark = true then .ok { t with phases := t.phases.push mark hf }
  else
    .error ⟨.kOutOfOrder, "phase " ++ mark.label ++ " starts at " ++ toString mark.startNs ++
      ", not later than " ++ lastText (t.phases.items.map (·.startNs))⟩

/-- A timeline that has recorded nothing yet, whatever series it has. -/
def Fresh (t : BoundedTimeline) : Prop :=
  t.phases.items = [] ∧ ∀ s ∈ t.series, s.points.items = []

theorem addSeries_fresh (t t' : BoundedTimeline) (metric : Metric) (id : Nat) (ht : t.Fresh)
    (ha : t.addSeries metric = .ok (id, t')) : t'.Fresh := by
  unfold addSeries at ha
  split_ifs at ha
  cases ha
  exact ⟨ht.1, forall_mem_append.mpr ⟨ht.2, forall_mem_singleton.mpr rfl⟩⟩

end BoundedTimeline

end LoadForge.Telemetry
