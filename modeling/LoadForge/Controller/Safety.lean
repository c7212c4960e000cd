import LoadForge.Controller.Plan
import LoadForge.Framework.Words
import LoadForge.Workloads.Schedule

namespace LoadForge.Controller

open Framework Config Mixed Worker Workloads

/-- The most the workers hold at once over a schedule, and where it is first reached. -/
structure Peak where
  bytes : UInt64
  where_ : String
  deriving DecidableEq

/-- The footprints after one command: a Switch replaces its worker's. -/
def heldAfter (slot : Nat) (held : List UInt64) : Command → List UInt64
  | .switch change => if slot < held.length then held.set slot change.footprintBytes else held
  | _ => held

def heldAfterStep (held : List UInt64) (step : Step) : List UInt64 :=
  step.workers.foldl (fun held each => each.commands.foldl (heldAfter each.slot) held) held

def peakFrom (held : List UInt64) (peak : Peak) : List Step → Peak
  | [] => peak
  | step :: rest =>
    let held := heldAfterStep held step
    peakFrom held
      (if peak.bytes < satSum held then ⟨satSum held, "the step \"" ++ step.phase ++ "\""⟩ else peak)
      rest

def peakOf (schedule : Schedule) (held : List UInt64) : Peak :=
  peakFrom held ⟨satSum held, "the start"⟩ schedule.steps

def enabledOf (config : LoadForge.Config) : List Config.Workload :=
  config.workloads.filter (·.enabled)

/-- What a workload is launched with, as far as its entry says. -/
def launchedWith (budget : MemoryBudget) (workload : Config.Workload) : Except String UInt64 :=
  match workload.memory with
  | none => .ok 0
  | some size =>
    (resolveMemory size budget ("workload." ++ workload.name)).mapError ConfigError.describe

/-- What is held against the limits: the launch's total, or the schedule's peak above it. -/
structure Demand where
  total : UInt64
  what : String
  where_ : String

def demandOf (launched : List UInt64) (schedule : Option Schedule) : Demand :=
  let atLaunch : Demand := ⟨launched.sum, "the workloads' memory adds up to ", ""⟩
  match schedule with
  | none => atLaunch
  | some schedule =>
    let held := if schedule.start = [] then launched else schedule.start.map (·.footprintBytes)
    let peak := peakOf schedule held
    if launched.sum < peak.bytes then
      ⟨peak.bytes, "the schedule holds up to ", " (at " ++ peak.where_ ++ ")"⟩
    else atLaunch

def within (demand : Demand) (bound : UInt64) (name : String) : Except String Unit :=
  if bound < demand.total then
    .error (demand.what ++ (ByteSize.bytes demand.total).toText ++ demand.where_ ++ ", past " ++
      name ++ (ByteSize.bytes bound).toText)
  else .ok ()

def checkMemory (config : LoadForge.Config) (budget : Option MemoryBudget)
    (schedule : Option Schedule) : Except String Unit :=
  match budget with
  | none => .ok ()
  | some budget => do
    let launched ← (enabledOf config).mapM (launchedWith budget)
    let demand := demandOf launched schedule
    within demand (ceilingOf budget) "the ceiling of "
    match config.limits.memory with
    | none => .ok ()
    | some size =>
      let limit ← (resolveMemory size budget "limits.memory").mapError ConfigError.describe
      within demand limit "limits.memory of "

/-- A plan for every enabled workload, in the order of their slots. -/
def planWorkers (compiled : Primitives.IsaSet) (config : LoadForge.Config)
    (budget : Option MemoryBudget) (options : VerificationOptions) (machine : Option Snapshot) :
    Except String (List WorkerPlan) :=
  (enabledOf config).zipIdx.mapM fun (entry, slot) =>
    planWorker compiled entry slot budget options machine

/-- What a worker is planned to hold; one without a workload holds nothing. -/
def plannedBytes (plan : WorkerPlan) : Nat :=
  (plan.args.map fun args => args.footprintBytes.toNat).getD 0

/-- What the plans of workloads with a memory entry hold together. -/
def enteredBytes : List Config.Workload → List WorkerPlan → Nat
  | entry :: entries, plan :: plans =>
    (if entry.memory.isSome then plannedBytes plan else 0) + enteredBytes entries plans
  | _, _ => 0

theorem within_eq_ok {demand : Demand} {bound : UInt64} {name : String} :
    within demand bound name = .ok () ↔ demand.total.toNat ≤ bound.toNat := by
  unfold within
  split_ifs with hpast
  · rw [UInt64.lt_iff_toNat_lt] at hpast
    simp only [false_iff]
    omega
  · rw [UInt64.lt_iff_toNat_lt] at hpast
    simp only [true_iff]
    omega

theorem checkMemory_ok (config : LoadForge.Config) (budget : MemoryBudget)
    (schedule : Option Schedule)
    (hcheck : checkMemory config (some budget) schedule = .ok ()) :
    ∃ launched, (enabledOf config).mapM (launchedWith budget) = .ok launched ∧
      (demandOf launched schedule).total.toNat ≤ (ceilingOf budget).toNat ∧
      ∀ size, config.limits.memory = some size →
        ∃ limit, resolveMemory size budget "limits.memory" = .ok limit ∧
          (demandOf launched schedule).total.toNat ≤ limit.toNat := by
  unfold checkMemory at hcheck
  obtain ⟨launched, hlaunched, hcheck⟩ := bind_eq_ok.mp hcheck
  obtain ⟨_, hceiling, hcheck⟩ := bind_eq_ok.mp hcheck
  refine ⟨launched, hlaunched, within_eq_ok.mp hceiling, ?_⟩
  intro size hsize
  rw [hsize] at hcheck
  obtain ⟨limit, hlimit, hcheck⟩ := bind_eq_ok.mp hcheck
  exact ⟨limit, mapError_eq_ok.mp hlimit, within_eq_ok.mp hcheck⟩

theorem plannedBytes_le (compiled : Primitives.IsaSet) (entry : Config.Workload) (slot : Nat)
    (budget : MemoryBudget) (options : VerificationOptions) (machine : Option Snapshot)
    (plan : WorkerPlan) (bytes : UInt64)
    (hp : planWorker compiled entry slot (some budget) options machine = .ok plan)
    (hb : launchedWith budget entry = .ok bytes) (hm : entry.memory.isSome) :
    plannedBytes plan ≤ bytes.toNat := by
  unfold plannedBytes
  cases ha : plan.args with
  | none => exact Nat.zero_le _
  | some args =>
    obtain ⟨_, footprint, isa, -, -, -, hfootprint, -, hargs, -⟩ :=
      planWorker_ok compiled entry slot (some budget) options machine plan args hp ha
    have hsame : footprintOf entry (some budget) options = launchedWith budget entry := by
      obtain ⟨size, hsize⟩ := Option.isSome_iff_exists.mp hm
      simp only [footprintOf, launchedWith, hsize]
    rw [hsame, hb] at hfootprint
    cases hfootprint
    rw [hargs]
    exact Nat.le_refl _

theorem enteredBytes_le (compiled : Primitives.IsaSet) (budget : MemoryBudget)
    (options : VerificationOptions) (machine : Option Snapshot) (entries : List Config.Workload)
    (slot : Nat) (launched : List UInt64) (plans : List WorkerPlan)
    (hl : List.Forall₂ (fun entry bytes => launchedWith budget entry = .ok bytes) entries launched)
    (hp : List.Forall₂ (fun each plan =>
      planWorker compiled each.1 each.2 (some budget) options machine = .ok plan)
      (entries.zipIdx slot) plans) :
    enteredBytes entries plans ≤ (launched.map UInt64.toNat).sum := by
  induction hl generalizing slot plans with
  | nil => exact Nat.le_of_eq rfl
  | @cons entry bytes entries launched hbytes _ ih =>
    rw [List.zipIdx_cons] at hp
    obtain ⟨plan, rest, hplan, hrest, rfl⟩ := List.forall₂_cons_left_iff.mp hp
    have hrest := ih (slot + 1) rest hrest
    rw [enteredBytes, List.map_cons, List.sum_cons]
    split_ifs with hm
    · have hplan := plannedBytes_le compiled entry slot budget options machine plan bytes hplan
        hbytes hm
      omega
    · omega

/-- Workloads with a memory entry are launched within the ceiling and the limit while their
entries add up within 64 bits. -/
theorem entered_memory_within_budget (compiled : Primitives.IsaSet) (config : LoadForge.Config)
    (budget : MemoryBudget) (options : VerificationOptions) (machine : Option Snapshot)
    (plans : List WorkerPlan) (hcheck : checkMemory config (some budget) none = .ok ())
    (hplans : planWorkers compiled config (some budget) options machine = .ok plans)
    (hfit : ∀ launched, (enabledOf config).mapM (launchedWith budget) = .ok launched →
      (launched.map UInt64.toNat).sum < 2 ^ 64) :
    enteredBytes (enabledOf config) plans ≤ (ceilingOf budget).toNat ∧
      ∀ size, config.limits.memory = some size →
        ∃ limit, resolveMemory size budget "limits.memory" = .ok limit ∧
          enteredBytes (enabledOf config) plans ≤ limit.toNat := by
  obtain ⟨launched, hlaunched, hceiling, hlimit⟩ := checkMemory_ok config budget none hcheck
  have hentered : enteredBytes (enabledOf config) plans ≤ (launched.map UInt64.toNat).sum :=
    enteredBytes_le compiled budget options machine (enabledOf config) 0 launched plans
      (mapM_eq_ok.mp hlaunched) (mapM_eq_ok.mp hplans)
  have htotal : (demandOf launched none).total.toNat = (launched.map UInt64.toNat).sum :=
    toNat_sum_of_lt launched (hfit launched hlaunched)
  refine ⟨by omega, ?_⟩
  intro size hsize
  obtain ⟨limit, hresolved, hle⟩ := hlimit size hsize
  exact ⟨limit, hresolved, by omega⟩

def soloOptions : VerificationOptions := { registry := some soloRegistry, lineBytes := 64 }

/-- Two workloads with a memory entry and one without. -/
theorem entered_memory_of_three_workloads : let config : LoadForge.Config :=
      { workloads := [{name := "integer", threads := ⟨1⟩, memory := some (.bytes 4096)},
          {name := "integer", threads := ⟨1⟩},
          {name := "integer", threads := ⟨1⟩, memory := some (.bytes 1024)}]
        limits := { memory := some (.bytes 6000) } }
    let budget : MemoryBudget := ⟨8192, none⟩
    ∃ plans, planWorkers (.of [.kScalar]) config (some budget) soloOptions none = .ok plans ∧
      enteredBytes (enabledOf config) plans = 5120 ∧
      enteredBytes (enabledOf config) plans ≤ (ceilingOf budget).toNat ∧
      ∃ limit, resolveMemory (.bytes 6000) budget "limits.memory" = .ok limit ∧
        enteredBytes (enabledOf config) plans ≤ limit.toNat := by
  refine ⟨_, rfl, rfl, ?_⟩
  refine (entered_memory_within_budget (.of [.kScalar]) _ _ soloOptions none _ (by decide) rfl
    ?_).imp_right fun hlimit => hlimit _ rfl
  intro launched hlaunched
  cases hlaunched
  decide

/-- The default footprint of a workload without a memory entry is not part of the check. -/
theorem default_footprint_past_ceiling :
    let config : LoadForge.Config := { workloads := [{name := "integer", threads := ⟨1⟩}] }
    let budget : MemoryBudget := ⟨16777216, none⟩
    checkMemory config (some budget) none = .ok () ∧
      ∃ plans, planWorkers (.of [.kScalar]) config (some budget) soloOptions none = .ok plans ∧
        (ceilingOf budget).toNat < (plans.map plannedBytes).sum := by
  refine ⟨by decide, _, rfl, ?_⟩
  decide

end LoadForge.Controller
