import LoadForge.Config.Config
import LoadForge.Controller.Supervision
import LoadForge.Statistics.Summarizer
import LoadForge.Verification.Record
import LoadForge.Verification.Runner
import LoadForge.Workloads.Workload

namespace LoadForge.Results

open Primitives Statistics Verification Workloads

inductive Verdict
  | kClean | kCorrectedErrors | kIncomplete | kFindings
  deriving DecidableEq

def Verdict.describe : Verdict → String
  | .kClean => "clean"
  | .kCorrectedErrors => "corrected errors"
  | .kIncomplete => "incomplete"
  | .kFindings => "findings"

def kSchemaVersion : Nat := 3
def kCorrectedErrorsMetric : String := "edac.corrected"
def kUncorrectedErrorsMetric : String := "edac.uncorrected"

structure WorkloadResult where
  descriptor : Descriptor
  isa : IsaPath
  decomposition : UInt32
  duty : DutyCycle
  tally : Tally
  logicalBytes : UInt64
  findings : List ErrorRecord
  lockPolicy : LockPolicy
  memoryLock : Option MemoryLock

structure WorkerResult where
  slot : Nat
  fate : Controller.WorkerFate
  cpu : Option UInt32

structure RunResult where
  schemaVersion : Nat := kSchemaVersion
  mode : Config.Mode
  elapsedNs : Int
  signature : LoadSignature := {}
  workloads : List WorkloadResult
  workers : List WorkerResult
  verdict : Verdict := .kIncomplete

structure FindingCounts where
  wrongResults : Nat
  notPerformed : Nat
  deriving DecidableEq

def countFindings (result : RunResult) : FindingCounts :=
  let findings := result.workloads.flatMap (·.findings)
  ⟨findings.countP isWrongResult, findings.countP fun found => !isWrongResult found⟩

/-- A unit's bytes times the units, or the largest count when that does not fit. -/
def logicalBytes (unitsComputed bytesPerUnit : UInt64) : UInt64 :=
  if unitsComputed.toNat * bytesPerUnit.toNat < 2 ^ 64 then unitsComputed * bytesPerUnit
  else 0xFFFFFFFFFFFFFFFF

def counterOf : Summary → Option CounterSummary
  | .counter summary => some summary
  | _ => none

def counterAdvanced (signature : LoadSignature) (name : String) : Bool :=
  signature.metrics.any fun summary =>
    summary.metric.name == name && (counterOf summary.value).any fun counter => 0 < counter.delta

def counterBlind (signature : LoadSignature) (name : String) : Bool :=
  signature.metrics.any fun summary =>
    summary.metric.name == name && (0 < summary.unavailableSamples ||
      (counterOf summary.value).any fun counter => 0 < counter.resets)

/-- A workload of which some check never compared anything. -/
def unchecked (workload : WorkloadResult) : Bool :=
  workload.tally.oracleBlocks == 0 || workload.tally.integrityChecked == 0

def deriveVerdict (result : RunResult) : Verdict :=
  let counts := countFindings result
  if 0 < counts.wrongResults ∨ counterAdvanced result.signature kUncorrectedErrorsMetric then
    .kFindings
  else
    let unfinished := result.workers.any fun worker => !Controller.isClean worker.fate
    let blind := counterBlind result.signature kCorrectedErrorsMetric ||
      counterBlind result.signature kUncorrectedErrorsMetric
    if result.workloads = [] ∨ 0 < counts.notPerformed ∨ result.workloads.any unchecked ∨
        unfinished ∨ blind then
      .kIncomplete
    else if counterAdvanced result.signature kCorrectedErrorsMetric then .kCorrectedErrors
    else .kClean

/-- Every result is sealed before it is read: its verdict is the one it derives. -/
def sealResult (result : RunResult) : RunResult :=
  { result with schemaVersion := kSchemaVersion, verdict := deriveVerdict result }

theorem countFindings_wrong_pos (result : RunResult) :
    0 < (countFindings result).wrongResults ↔
      ∃ workload ∈ result.workloads, ∃ found ∈ workload.findings, isWrongResult found = true := by
  simp only [countFindings, List.countP_pos_iff, List.mem_flatMap]
  constructor
  · rintro ⟨found, ⟨workload, hw, hf⟩, hwrong⟩
    exact ⟨workload, hw, found, hf, hwrong⟩
  · rintro ⟨workload, hw, found, hf, hwrong⟩
    exact ⟨found, ⟨workload, hw, hf⟩, hwrong⟩

theorem deriveVerdict_findings_iff (result : RunResult) :
    deriveVerdict result = .kFindings ↔
      0 < (countFindings result).wrongResults ∨
        counterAdvanced result.signature kUncorrectedErrorsMetric = true := by
  unfold deriveVerdict
  by_cases hfound : 0 < (countFindings result).wrongResults ∨
      counterAdvanced result.signature kUncorrectedErrorsMetric = true
  · simp [hfound]
  · simp only [hfound, if_false, iff_false]
    split_ifs <;> simp

end LoadForge.Results
