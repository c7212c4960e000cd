import LoadForge.Controller.Plan
import LoadForge.Worker.EntryRoundTrip

namespace LoadForge.Controller

open Config Primitives Verification Worker Workloads

def spawnArgs (endpoints : Endpoints) (pacing : Pacing) (plan : WorkerPlan) : WorkerArgs where
  slot := endpoints.slot
  workers := endpoints.workers
  heartbeatFd := endpoints.heartbeatFd
  recordFd := endpoints.recordFd
  controlFd := endpoints.controlFd
  supervisorPid := endpoints.supervisorPid
  pacing := pacing
  cpus := plan.cpus
  workload := plan.args

/-- The threads an entry asks for: its count, or one for each CPU of the run. -/
def askedThreads (entry : Config.Workload) (options : VerificationOptions) : Nat :=
  if entry.threads.isAll then max options.cpus.length 1 % 2 ^ 32 else entry.threads.count.toNat

theorem placementOf_threads (entry : Config.Workload) (slot : Nat)
    (options : VerificationOptions) :
    (placementOf entry slot options).1.toNat = askedThreads entry options := by
  unfold placementOf askedThreads
  split_ifs
  · exact UInt32.toNat_ofNat'
  · rfl

/-- A worker started for a plan reads its work and its CPUs back. -/
def Starts (executable : String) (endpoints : Endpoints) (pacing : Pacing) (plan : WorkerPlan) :
    Prop :=
  ∃ parsed, parseArgs ((argvFor executable (spawnArgs endpoints pacing plan)).drop 2) =
    .ok parsed ∧ parsed.workload = plan.args ∧ parsed.cpus = plan.cpus

/-- A planned worker starts with the work and the CPUs of its plan exactly when its threads and
the line size are within what a worker takes. -/
theorem planned_worker_starts_iff (compiled : IsaSet) (entry : Config.Workload)
    (budget : Option MemoryBudget) (options : VerificationOptions) (machine : Option Snapshot)
    (executable : String) (endpoints read : Endpoints) (pacing paced : Pacing)
    (plan : WorkerPlan)
    (hp : planWorker compiled entry endpoints.slot.toNat budget options machine = .ok plan)
    (ha : plan.args.isSome)
    (he : parseEndpoints (arguments (spawnArgs endpoints pacing plan)) = .ok read)
    (ht : pacingOf (arguments (spawnArgs endpoints pacing plan)) = .ok paced) :
    Starts executable endpoints pacing plan ↔
      (0 < askedThreads entry options ∧ askedThreads entry options ≤ 1024) ∧
        LineAccepted options.lineBytes := by
  obtain ⟨work, hwork⟩ := Option.isSome_iff_exists.mp ha
  obtain ⟨registry, footprint, isa, -, hname, -, -, hfootprint, rfl, -⟩ :=
    planWorker_ok compiled entry endpoints.slot.toNat budget options machine plan work hp hwork
  have hvalid : isValidName entry.name = true := registry.names_valid entry.name hname
  have hstarts := parseArgs_argvFor (spawnArgs endpoints pacing plan) _ executable hwork read he
    paced ht
  have hthreads := placementOf_threads entry endpoints.slot.toNat options
  simp only [plannedArgs, hthreads, hvalid, hfootprint, true_and] at hstarts
  exact hstarts

def launchEndpoints : Endpoints := ⟨1, 0, 5, 6, 7, 4321⟩

def launchPacing : Pacing := ⟨1000000000, 100000000, 2000000000⟩

def launchOptions : VerificationOptions :=
  { registry := some soloRegistry, lineBytes := 64, cpus := [4, 5] }

def integerEntry (threads : UInt32) : Config.Workload := { name := "integer", threads := ⟨threads⟩ }

theorem planned_worker_starts_on_two_cpus :
    ∃ plan, planWorker (.of [.kScalar]) (integerEntry 2) 0 none launchOptions none = .ok plan ∧
      plan.cpus = [4, 5] ∧ Starts "loadforge" launchEndpoints launchPacing plan := by
  refine ⟨_, rfl, rfl, ?_⟩
  refine (planned_worker_starts_iff (.of [.kScalar]) (integerEntry 2) none launchOptions none
    "loadforge" launchEndpoints launchEndpoints launchPacing launchPacing _ rfl rfl
    (by decide +kernel) (by decide +kernel)).mpr ?_
  exact ⟨by decide, by decide, by decide, 6, rfl⟩

theorem planned_worker_refuses_threads :
    ∃ plan, planWorker (.of [.kScalar]) (integerEntry 2000) 0 none launchOptions none = .ok plan ∧
      plan.args.isSome ∧
      parseEndpoints (arguments (spawnArgs launchEndpoints launchPacing plan)) =
        .ok launchEndpoints ∧
      pacingOf (arguments (spawnArgs launchEndpoints launchPacing plan)) = .ok launchPacing ∧
      parseArgs ((argvFor "loadforge" (spawnArgs launchEndpoints launchPacing plan)).drop 2) =
        .error "--threads: 2000 is past the limit of 1024" := by
  refine ⟨_, rfl, rfl, ?_, ?_, ?_⟩
  · decide +kernel
  · decide +kernel
  · decide +kernel

end LoadForge.Controller
