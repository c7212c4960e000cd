import LoadForge.Controller.Report
import LoadForge.Results.Verdict

namespace LoadForge.Cli

open Controller Framework Results Verification Worker

def kExitUnclean : Int := 3
def kExitFault : Int := 5
def kExitNotVerified : Int := 6
def kExitTemperature : Int := 7
def kExitSignalBase : Int := 128

def workloadResult (worker : WorkerReport) (work : WorkerWork) : WorkloadResult where
  descriptor := work.descriptor
  isa := work.isa
  decomposition := work.decomposition
  duty := work.duty
  tally := worker.tally
  logicalBytes := logicalBytes worker.tally.unitsComputed work.logicalBytes
  findings := worker.findings
  lockPolicy := work.lock
  memoryLock := worker.memory

def toRunResult (report : RunReport) (config : LoadForge.Config) : RunResult :=
  sealResult {
    mode := config.run.mode
    elapsedNs := report.elapsedNs
    workloads := report.workers.filterMap fun worker => worker.work.map (workloadResult worker)
    workers := report.workers.map fun worker =>
      ⟨worker.slot, worker.fate, worker.work.bind (·.cpu)⟩ }

def exitCodeOf (verdict : Verdict) (workersClean verified temperatureStopped : Bool)
    (stopSignal : Int) : Int :=
  if verdict = .kFindings ∨ verdict = .kCorrectedErrors then kExitFault
  else if temperatureStopped then kExitTemperature
  else if stopSignal ≠ 0 then kExitSignalBase + stopSignal
  else if !workersClean then kExitUnclean
  else if verified ∧ verdict = .kIncomplete then kExitNotVerified
  else 0

def hasVerifiedWorker (report : RunReport) : Bool :=
  report.workers.any fun worker => worker.work.isSome

def exitCodeFor (report : RunReport) (config : LoadForge.Config) : Int :=
  let verified := hasVerifiedWorker report
  let verdict := if verified then (toRunResult report config).verdict else .kClean
  exitCodeOf verdict (allClean report) verified report.temperatureStop.isSome
    (report.stopSignal.getD 0)

def KeepsWrongResult (report : RunReport) : Prop :=
  ∃ worker ∈ report.workers, worker.work.isSome = true ∧
    ∃ found ∈ worker.findings, isWrongResult found = true

theorem toRunResult_findings_iff (report : RunReport) (config : LoadForge.Config) :
    (toRunResult report config).verdict = .kFindings ↔ KeepsWrongResult report := by
  unfold toRunResult sealResult
  rw [deriveVerdict_findings_iff, countFindings_wrong_pos]
  simp only [counterAdvanced, List.any_nil, Bool.false_eq_true, or_false, List.mem_filterMap,
    Option.map_eq_some_iff, KeepsWrongResult]
  constructor
  · rintro ⟨_, ⟨worker, hw, work, hwork, rfl⟩, found, hf, hwrong⟩
    exact ⟨worker, hw, by simp [hwork], found, hf, hwrong⟩
  · rintro ⟨worker, hw, hwork, found, hf, hwrong⟩
    obtain ⟨work, hwork⟩ := Option.isSome_iff_exists.mp hwork
    exact ⟨workloadResult worker work, ⟨worker, hw, work, hwork, rfl⟩, found, hf, hwrong⟩

theorem exitCodeFor_fault_of_findings (report : RunReport) (config : LoadForge.Config)
    (hk : KeepsWrongResult report) : exitCodeFor report config = kExitFault := by
  have hverified : hasVerifiedWorker report = true := by
    obtain ⟨worker, hw, hwork, -⟩ := hk
    exact List.any_eq_true.mpr ⟨worker, hw, hwork⟩
  have hverdict := (toRunResult_findings_iff report config).mpr hk
  simp only [exitCodeFor, hverified, if_true, hverdict, exitCodeOf, true_or]

theorem keepsWrongResult_iff (shortest : UInt64 → String) (plans : List WorkerPlan)
    (es : List (Nat × WorkerEvent)) (ending : Ending) :
    KeepsWrongResult (finish (runAll shortest plans es) ending) ↔
      ∃ index, ∃ found ∈ (acceptedFrom shortest plans es index).take kMaxFindingsKept,
        isWrongResult found = true := by
  simp only [KeepsWrongResult, finish, List.mem_map]
  constructor
  · rintro ⟨_, ⟨w, hw, rfl⟩, -, found, hf, hwrong⟩
    obtain ⟨index, plan, hplan, rfl⟩ := (mem_runAll shortest plans es w).mp hw
    rw [report_findings shortest plans es index plan hplan] at hf
    exact ⟨index, found, hf, hwrong⟩
  · rintro ⟨index, found, hf, hwrong⟩
    cases hplan : plans[index]? with
    | none => simp [acceptedFrom, hplan] at hf
    | some plan =>
      have haccepted : found ∈ acceptedRecords shortest (.launch index plan) (eventsOf index es) := by
        simpa [acceptedFrom, hplan] using List.mem_of_mem_take hf
      have hwork : plan.work.isSome = true := by
        rw [← plan.together]
        exact acceptedRecords_args shortest (.launch index plan) (eventsOf index es) found haccepted
      refine ⟨_, ⟨_, (mem_runAll shortest plans es _).mpr ⟨index, plan, hplan, rfl⟩, rfl⟩, ?_,
        found, ?_, hwrong⟩
      · rw [report_work]
        exact hwork
      · rw [report_findings shortest plans es index plan hplan]
        exact hf

/-- The verdict is of findings exactly when a wrong result is among the first records accepted
from a worker, as many as its report has room for. -/
theorem wrong_result_reaches_verdict_iff (shortest : UInt64 → String) (plans : List WorkerPlan)
    (es : List (Nat × WorkerEvent)) (ending : Ending) (config : LoadForge.Config) :
    ((toRunResult (finish (runAll shortest plans es) ending) config).verdict = .kFindings ∧
        exitCodeFor (finish (runAll shortest plans es) ending) config = kExitFault) ↔
      ∃ index, ∃ found ∈ (acceptedFrom shortest plans es index).take kMaxFindingsKept,
        isWrongResult found = true := by
  rw [toRunResult_findings_iff, ← keepsWrongResult_iff shortest plans es ending]
  constructor
  · rintro ⟨hkeeps, -⟩
    exact hkeeps
  · intro hkeeps
    exact ⟨hkeeps, exitCodeFor_fault_of_findings _ config hkeeps⟩

/-- A record of a check that was not performed, and one of an output that was wrong. -/
def notPerformedFrame : Record := ⟨kErrorRecordFrameType, [2, 3] ++ List.replicate 39 0⟩

def wrongResultFrame : Record :=
  ⟨kErrorRecordFrameType,
    [2, 1] ++ List.replicate 16 0 ++ [1, 0, 0, 0, 0, 0, 0, 0, 120, 64, 0, 0, 0, 0]⟩

/-- One worker that skips as many checks as are kept, then finds a wrong result and ends. -/
def lateFindingRun : List (Nat × WorkerEvent) :=
  List.replicate kMaxFindingsKept (0, .frame notPerformedFrame) ++
    [(0, .frame wrongResultFrame),
     (0, .frame ⟨kTallyFrameType,
       encodeTally { unitsComputed := 300, oracleBlocks := 44, integrityChecked := 300 }⟩),
     (0, .frame ⟨2, []⟩), (0, .endOfStream), (0, .reaped (.exited 0) none)]

theorem late_wrong_result_lost :
    let accepted := acceptedFrom (fun _ => "") [soloPlan] lateFindingRun 0
    let report := finish (runAll (fun _ => "") [soloPlan] lateFindingRun) ⟨0, false, 0, none, none, false⟩
    accepted.any isWrongResult = true ∧
      (toRunResult report { workloads := [] }).verdict = .kIncomplete ∧
      exitCodeFor report { workloads := [] } = kExitNotVerified := by
  decide +kernel

end LoadForge.Cli
