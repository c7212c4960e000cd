import LoadForge.Config.Config
import LoadForge.Worker.Entry

namespace LoadForge.Controller

open Framework Config Primitives Verification Worker Workloads

structure CoreAddress where
  package : UInt32
  core : UInt32
  deriving DecidableEq

structure LogicalCpu where
  id : UInt32
  core : CoreAddress
  deriving DecidableEq

structure NumaNode where
  id : UInt32
  cpus : List UInt32
  deriving DecidableEq

/-- The machine as discovery found it, as far as planning reads it. -/
structure Snapshot where
  cpus : List LogicalCpu
  nodes : List NumaNode
  deriving DecidableEq

def coreOf (machine : Snapshot) (cpu : UInt32) : Option CoreAddress :=
  (machine.cpus.find? fun each => each.id == cpu).map (·.core)

def nodeOf (machine : Snapshot) (cpu : UInt32) : Option NumaNode :=
  machine.nodes.find? fun node => node.cpus.contains cpu

/-- What the controller needs to run workloads that verify themselves. -/
structure VerificationOptions where
  registry : Option Registry := none
  seed : UInt64 := 1
  footprintBytes : UInt64 := 33554432
  decomposition : UInt32 := 0
  requestedIsa : Option IsaPath := none
  isaProbe : Option IsaSet := none
  duty : DutyCycle := {}
  lineBytes : UInt32 := 0
  cpus : List UInt32 := []
  lock : LockPolicy := .kTry

def kSeedStride : UInt64 := 0x9E3779B97F4A7C15

structure WorkerWork where
  descriptor : Descriptor
  isa : IsaPath
  decomposition : UInt32
  duty : DutyCycle
  logicalBytes : UInt64
  threads : UInt32
  cpu : Option UInt32
  seed : UInt64
  footprintBytes : UInt64
  lineBytes : UInt32
  lock : LockPolicy

/-- One worker's plan. What it is told and what the report says it ran are set together. -/
structure WorkerPlan where
  args : Option WorkloadArgs := none
  threads : UInt32 := 0
  cpus : List UInt32 := []
  description : String
  work : Option WorkerWork := none
  together : args.isSome = work.isSome := by rfl

theorem WorkerPlan.none_together :
    (none : Option WorkloadArgs).isSome = (none : Option WorkerWork).isSome := rfl

/-- A block of `threads` CPUs for a worker, wrapping, without repeating one. -/
def assignCpus (slot threads : Nat) (all : List UInt32) : List UInt32 :=
  let start := slot * threads % 2 ^ 64 % all.length
  (List.range (min threads all.length)).map fun index => all.getD ((start + index) % all.length) 0

def chooseIsa (requested : Option IsaPath) (supported compiled workloadPaths : IsaSet) :
    Except DispatchError IsaPath :=
  match requested with
  | none => selectPath none supported (compiled.intersect workloadPaths)
  | some path =>
    if !workloadPaths.contains path then
      .error ⟨.kNotCompiled, path, "the workload has no " ++ path.describe ++ " kernel"⟩
    else selectPath requested supported compiled

def cpuList (cpus : List UInt32) : String :=
  match cpus with
  | [] => "unpinned"
  | [cpu] => "cpu " ++ toString cpu
  | cpus => "cpus " ++ ",".intercalate (cpus.map toString)

def refused (name : String) (e : WorkloadError) : String :=
  name ++ ": " ++ e.fault.describe ++ ": " ++ e.detail

def placementOf (entry : Config.Workload) (slot : Nat) (options : VerificationOptions) :
    UInt32 × List UInt32 :=
  if entry.threads.isAll then (UInt32.ofNat (max options.cpus.length 1), options.cpus)
  else (entry.threads.count, assignCpus slot entry.threads.count.toNat options.cpus)

/-- The footprint of a worker: its entry's, resolved, or the default. -/
def footprintOf (entry : Config.Workload) (budget : Option MemoryBudget)
    (options : VerificationOptions) : Except String UInt64 :=
  match entry.memory, budget with
  | some size, some budget =>
    (resolveMemory size budget ("workload." ++ entry.name)).mapError ConfigError.describe
  | some (.bytes count), none => .ok count
  | _, _ => .ok options.footprintBytes

/-- The package, core and node of a worker that is placed on one CPU. -/
def placeOf (machine : Option Snapshot) (cpus : List UInt32) : Option CoreAddress × Option UInt32 :=
  match machine, cpus with
  | some machine, [cpu] => (coreOf machine cpu, (nodeOf machine cpu).map (·.id))
  | _, _ => (none, none)

def plannedArgs (entry : Config.Workload) (slot : Nat) (options : VerificationOptions)
    (machine : Option Snapshot) (footprint : UInt64) (isa : IsaPath) : WorkloadArgs :=
  let (threads, cpus) := placementOf entry slot options
  let (core, node) := placeOf machine cpus
  { workload := entry.name, seed := options.seed + UInt64.ofNat slot * kSeedStride
    footprintBytes := footprint, threads := threads, decomposition := options.decomposition
    isa := isa, lock := options.lock, duty := options.duty, lineBytes := options.lineBytes
    physicalPackage := core.map (·.package), physicalCore := core.map (·.core)
    numaNode := node }

/-- The plan for a configured workload at a slot, or why the run cannot start. -/
def planWorker (compiled : IsaSet) (entry : Config.Workload) (slot : Nat)
    (budget : Option MemoryBudget) (options : VerificationOptions) (machine : Option Snapshot) :
    Except String WorkerPlan :=
  match options.registry with
  | none => .ok { description := entry.name ++ ": null workload" }
  | some registry =>
    if entry.name ∉ registry.names then .ok { description := entry.name ++ ": null workload" }
    else if options.lineBytes = 0 then
      .error (entry.name ++ ": the machine's cache-line size is not known, and an error record's " ++
        "classification depends on it; refusing to assume one")
    else do
      let (threads, cpus) := placementOf entry slot options
      let footprint ← footprintOf entry budget options
      let seed := options.seed + UInt64.ofNat slot * kSeedStride
      let described ← (registry.descriptor entry.name).mapError (refused entry.name)
      let supported := options.isaProbe.getD (.of [.kScalar])
      let isa ← (chooseIsa options.requestedIsa supported compiled described.paths).mapError
        fun e => entry.name ++ ": " ++ e.detail
      let created ← (registry.create entry.name
        ⟨seed, footprint, options.decomposition, isa⟩).mapError (refused entry.name)
      return {
        args := some (plannedArgs entry slot options machine footprint isa)
        threads := threads
        cpus := cpus
        description := entry.name ++ ": " ++ toString threads ++ " thread(s) on " ++
          cpuList cpus ++ ", footprint " ++ (ByteSize.bytes footprint).toText ++ ", " ++
          toString created.plan.units ++ " unit(s) resident, " ++ isa.describe ++ " path"
        work := some {
          descriptor := created.descriptor, isa := isa
          decomposition := created.plan.decomposition, duty := options.duty
          logicalBytes := created.plan.logicalBytes, threads := threads
          cpu := match cpus with
            | [cpu] => some cpu
            | _ => none
          seed := seed, footprintBytes := footprint, lineBytes := options.lineBytes
          lock := options.lock } }

theorem planWorker_ok (compiled : IsaSet) (entry : Config.Workload) (slot : Nat)
    (budget : Option MemoryBudget) (options : VerificationOptions) (machine : Option Snapshot)
    (plan : WorkerPlan) (args : WorkloadArgs)
    (hp : planWorker compiled entry slot budget options machine = .ok plan)
    (ha : plan.args = some args) :
    ∃ registry footprint isa, options.registry = some registry ∧ entry.name ∈ registry.names ∧
      options.lineBytes ≠ 0 ∧ footprintOf entry budget options = .ok footprint ∧
      0 < footprint.toNat ∧ args = plannedArgs entry slot options machine footprint isa ∧
      plan.cpus = (placementOf entry slot options).2 := by
  unfold planWorker at hp
  cases hregistry : options.registry with
  | none =>
    rw [hregistry] at hp
    cases hp
    cases ha
  | some registry =>
    rw [hregistry] at hp
    by_cases hname : entry.name ∈ registry.names
    · simp only [hname, not_true_eq_false, if_false] at hp
      split_ifs at hp with hline
      obtain ⟨footprint, hfootprint, hp⟩ := bind_eq_ok.mp hp
      obtain ⟨described, -, hp⟩ := bind_eq_ok.mp hp
      obtain ⟨isa, -, hp⟩ := bind_eq_ok.mp hp
      obtain ⟨created, -, hp⟩ := bind_eq_ok.mp hp
      cases hp
      cases ha
      exact ⟨registry, footprint, isa, rfl, hname, hline, hfootprint,
        created.plan.footprint_pos, rfl, rfl⟩
    · simp only [hname, not_false_eq_true, if_true] at hp
      cases hp
      cases ha

/-- A registry of one workload, whose units are of eight bytes and of which one is resident. -/
def soloRegistry : Registry where
  names := ["integer"]
  descriptor := fun name => .ok { name := name }
  create := fun name config =>
    if h : 8 ≤ config.footprintBytes.toNat then
      .ok { descriptor := { name := name }
            plan := { inputBytes := 4, outputBytes := 4, scratchBytes := 0, units := 1
                      decomposition := 0, logicalBytes := 8, operations := 1
                      input_pos := by decide, output_pos := by decide, units_pos := by decide
                      fits := h } }
    else .error ⟨.kFootprintTooSmall, "8 bytes are one unit"⟩
  names_valid := by decide

/-- A worker of one thread, unpinned, with the oracle and the bracket on every unit. -/
def soloPlan : WorkerPlan where
  args := some {
    workload := "integer", seed := 1, footprintBytes := 4096, threads := 1, decomposition := 0
    isa := .kScalar, lock := .kTry, duty := {}, lineBytes := 64, physicalPackage := none
    physicalCore := none, numaNode := none }
  threads := 1
  description := "integer: 1 thread(s) on unpinned, footprint 4KiB, 1 unit(s) resident, scalar path"
  work := some {
    descriptor := { name := "integer" }, isa := .kScalar, decomposition := 0, duty := {}
    logicalBytes := 4096, threads := 1, cpu := none, seed := 1, footprintBytes := 4096
    lineBytes := 64, lock := .kTry }

end LoadForge.Controller
