import LoadForge.Results.Verdict
import LoadForge.Telemetry.Sampler

namespace LoadForge.Explore

open Telemetry

/-- The operations on doubles that the search uses; nothing is assumed of them. -/
class Doubles (F : Type) extends Add F, Sub F, Mul F, Div F, Neg F, LT F, LE F, NatCast F, IntCast F,
    OfScientific F where
  ltDecidable : ∀ a b : F, Decidable (a < b)
  leDecidable : ∀ a b : F, Decidable (a ≤ b)
  sqrt : F → F
  floor : F → F
  toSize : F → Nat

instance decidableLt {F : Type} [Doubles F] (a b : F) : Decidable (a < b) := Doubles.ltDecidable a b

instance decidableLe {F : Type} [Doubles F] (a b : F) : Decidable (a ≤ b) := Doubles.leDecidable a b

structure Settle where
  metric : String
  windowNs : Int := 30000000000
  maxNs : Int := 300000000000
  deriving DecidableEq

/-- One point of the search space, as far as the search itself reads it. -/
structure Candidate where
  id : String
  settle : Option Settle := none
  duty : Verification.DutyCycle := {}
  deriving DecidableEq

structure GaugeSummary (F : Type) where
  min : F
  max : F
  mean : F
  stddev : Option F
  last : F
  slopePerSecond : Option F

structure CounterSummary (F : Type) where
  delta : UInt64
  ratePerSecond : Option F

inductive Summary (F : Type)
  | unavailable (gone : Unavailable)
  | gauge (gauge : GaugeSummary F)
  | counter (counter : CounterSummary F)

structure MetricSummary (F : Type) where
  metric : Metric
  value : Summary F

structure LoadSignature (F : Type) where
  window : Statistics.Window
  metrics : List (MetricSummary F)

structure TrialOutcome (F : Type) where
  signature : LoadSignature F
  settled : Bool := false
  verdict : Results.Verdict := .kIncomplete

inductive TrialFault
  | kCandidate | kMetricUnavailable | kRun
  deriving DecidableEq

structure TrialError where
  fault : TrialFault := .kRun
  detail : String
  deriving DecidableEq

structure CapabilityReport where
  sources : List Source

def CapabilityReport.statuses (capabilities : CapabilityReport) : List MetricStatus :=
  capabilities.sources.flatMap (·.statuses)

/-- Whatever runs the trials: `run calls candidate` is what it answers after `calls` earlier calls. -/
structure TrialRunner (F : Type) where
  capabilities : CapabilityReport
  run : Nat → Candidate → Except TrialError (TrialOutcome F)

inductive GaugeStatistic
  | kMean | kMax | kMin | kLast | kStddev | kSlope
  deriving DecidableEq

inductive CounterStatistic
  | kRate | kDelta
  deriving DecidableEq

inductive Statistic
  | gauge (statistic : GaugeStatistic)
  | counter (statistic : CounterStatistic)
  deriving DecidableEq

def GaugeStatistic.describe : GaugeStatistic → String
  | .kMean => "mean"
  | .kMax => "max"
  | .kMin => "min"
  | .kLast => "last"
  | .kStddev => "stddev"
  | .kSlope => "slope per second"

def CounterStatistic.describe : CounterStatistic → String
  | .kRate => "rate per second"
  | .kDelta => "delta"

def statisticName : Statistic → String
  | .gauge statistic => statistic.describe
  | .counter statistic => statistic.describe

def Statistic.isGauge : Statistic → Bool
  | .gauge _ => true
  | .counter _ => false

inductive Direction
  | kHigherIsWorse | kLowerIsWorse
  deriving DecidableEq

def signOf {F : Type} [Doubles F] (direction : Direction) : F :=
  if direction = .kHigherIsWorse then 1.0 else -1.0

structure Objective where
  metric : String
  scopeIndex : UInt32 := 0
  statistic : Statistic := .gauge .kMean
  direction : Direction := .kHigherIsWorse
  deriving DecidableEq

inductive ExploreFault
  | kUnknownMetric | kMetricUnavailable | kStatistic | kNoReading | kConfiguration | kDutyCycle
  | kTrial | kReference
  deriving DecidableEq

structure ExploreError where
  fault : ExploreFault := .kConfiguration
  detail : String
  trial : Option TrialFault := none
  deriving DecidableEq

def makeError (fault : ExploreFault) (detail : String) : ExploreError := ⟨fault, detail, none⟩

/-- An objective resolved against a capability report. -/
structure BoundObjective where
  metric : Metric
  statistic : Statistic := .gauge .kMean
  direction : Direction := .kHigherIsWorse
  deriving DecidableEq

def Objective.bind (objective : Objective) (capabilities : CapabilityReport) :
    Except ExploreError BoundObjective :=
  match capabilities.statuses.find? fun status =>
      status.metric.name == objective.metric && status.metric.scopeIndex == objective.scopeIndex with
  | none =>
    .error (makeError .kUnknownMetric ("objective metric " ++ objective.metric ++ " (index " ++
      toString objective.scopeIndex.toNat ++ ") is not in the capability report"))
  | some status =>
    match status.unavailable with
    | some why =>
      .error (makeError .kMetricUnavailable ("objective metric " ++ objective.metric ++
        " is unavailable: " ++ why.detail ++ " (" ++ why.remediation ++ ")"))
    | none =>
      if objective.statistic.isGauge != (status.metric.kind == .kGauge) then
        .error (makeError .kStatistic ("statistic " ++ statisticName objective.statistic ++
          " does not fit the kind of " ++ objective.metric))
      else .ok ⟨status.metric, objective.statistic, objective.direction⟩

section Score

variable {F : Type} [Doubles F]

def gaugeValue (gauge : GaugeSummary F) : GaugeStatistic → Option F
  | .kMean => some gauge.mean
  | .kMax => some gauge.max
  | .kMin => some gauge.min
  | .kLast => some gauge.last
  | .kStddev => gauge.stddev
  | .kSlope => gauge.slopePerSecond

def counterValue (counter : CounterSummary F) : CounterStatistic → Option F
  | .kRate => counter.ratePerSecond
  | .kDelta => some (counter.delta.toNat : F)

/-- A value a summary lacks is an error, never a score of zero. -/
def scoreOf (objective : BoundObjective) (value : Option F) : Except ExploreError F :=
  match value with
  | some value => .ok value
  | none =>
    .error (makeError .kNoReading (objective.metric.name ++ " has too few readings for " ++
      statisticName objective.statistic))

def score (objective : BoundObjective) (signature : LoadSignature F) : Except ExploreError F :=
  match signature.metrics.find? fun summary => sameSeries summary.metric objective.metric with
  | none =>
    .error (makeError .kNoReading ("the signature has no series " ++ objective.metric.name))
  | some summary =>
    match summary.value, objective.statistic with
    | .gauge gauge, .gauge statistic => scoreOf objective (gaugeValue gauge statistic)
    | .gauge _, .counter _ =>
      .error (makeError .kStatistic ("the signature holds a gauge for " ++ objective.metric.name))
    | .counter counter, .counter statistic => scoreOf objective (counterValue counter statistic)
    | .counter _, .gauge _ =>
      .error (makeError .kStatistic ("the signature holds a counter for " ++ objective.metric.name))
    | .unavailable gone, _ =>
      .error (makeError .kNoReading (objective.metric.name ++ " has no reading in the window: " ++
        gone.detail ++ " (" ++ gone.remediation ++ ")"))

theorem score_fault {objective : BoundObjective} {signature : LoadSignature F} {e : ExploreError}
    (h : score objective signature = .error e) : e.fault ≠ .kReference := by
  unfold score scoreOf at h
  split at h
  · cases h
    exact nofun
  · split at h
    all_goals try split at h
    all_goals cases h
    all_goals exact nofun

end Score

end LoadForge.Explore
