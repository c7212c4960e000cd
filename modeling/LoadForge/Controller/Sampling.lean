import LoadForge.Telemetry.Sampler

namespace LoadForge.Controller

open Framework Telemetry

inductive TelemetryFault
  | samplingStopped (refusal : TimelineError)
  | phaseRefused (label : String) (fault : TimelineFault)
  deriving DecidableEq

def describeRefusal (e : TimelineError) : String :=
  if e.detail = "" then e.fault.describe else e.fault.describe ++ " (" ++ e.detail ++ ")"

def TelemetryFault.describe : TelemetryFault → String
  | .samplingStopped refusal => "sampling stopped: " ++ describeRefusal refusal
  | .phaseRefused label fault => "phase \"" ++ label ++ "\" refused: " ++ fault.describe

structure SamplingOptions where
  sampler : Option Sampler
  marks : Bool := true
  sampleIntervalNs : Int

/-- The telemetry of a run so far: the rounds taken, the faults raised in order, the timeline. -/
structure Sampling where
  enabled : Bool := false
  live : Bool := false
  rounds : Nat := 0
  points : Nat := 0
  firstRoundNs : Int := 0
  lastRoundNs : Int := 0
  faults : List TelemetryFault := []
  timeline : BoundedTimeline

/-- The fault a report carries: the first. -/
def Sampling.fault (s : Sampling) : Option String := s.faults.head?.map TelemetryFault.describe

/-- A round not later than the last is skipped, and an early one unless it is forced. -/
def roundDue (o : SamplingOptions) (s : Sampling) (nowNs : Int) (force : Bool) : Bool :=
  s.live && !(0 < s.rounds && decide (nowNs ≤ s.lastRoundNs)) &&
    !(0 < s.rounds && !force && decide (nowNs - s.lastRoundNs < o.sampleIntervalNs))

/-- What a round came to. The first refusal ends the sampling. -/
def noteRound (s : Sampling) (nowNs : Int) (t : BoundedTimeline) :
    Except TimelineError Nat → Sampling
  | .error refusal =>
    { s with timeline := t, faults := s.faults ++ [.samplingStopped refusal], live := false }
  | .ok appended =>
    { s with
      timeline := t
      firstRoundNs := if 0 < s.rounds then s.firstRoundNs else nowNs
      lastRoundNs := nowNs
      rounds := s.rounds + 1
      points := s.points + appended }

def takeRound (o : SamplingOptions) (s : Sampling) (nowNs : Int) (force : Bool)
    (sample : Nat → List Reading) : Sampling :=
  match o.sampler with
  | none => s
  | some sampler =>
    if roundDue o s nowNs force then
      let answer := sampler.round sample s.timeline nowNs
      noteRound s nowNs answer.1 answer.2
    else s

def markPhase (o : SamplingOptions) (s : Sampling) (label : String) (nowNs : Int) : Sampling :=
  if !s.enabled || !o.marks then s
  else
    match s.timeline.markPhase ⟨nowNs, label⟩ with
    | .ok t => { s with timeline := t }
    | .error e => { s with faults := s.faults ++ [.phaseRefused label e.fault] }

/-- The baseline round and the first phase, before any worker exists. -/
def beginTelemetry (o : SamplingOptions) (t : BoundedTimeline) (startedNs : Int)
    (sample : Nat → List Reading) : Sampling :=
  if o.sampler.isNone then { timeline := t }
  else
    let s : Sampling := { enabled := true, live := true, timeline := t }
    markPhase o (takeRound o s startedNs true sample) "run" startedNs

end LoadForge.Controller
