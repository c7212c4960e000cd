import LoadForge.Core.ParseNumber
import LoadForge.Framework.Fallible
import LoadForge.Verification.Record
import LoadForge.Verification.Runner
import LoadForge.Workloads.Workload

namespace LoadForge.Worker

open LoadForge.Core Primitives Verification Workloads
open Framework (hasSingleBit)

/-- What a worker runs when it runs a real workload. -/
structure WorkloadArgs where
  workload : String
  seed : UInt64
  footprintBytes : UInt64
  threads : UInt32
  decomposition : UInt32
  isa : IsaPath
  lock : LockPolicy
  duty : DutyCycle
  lineBytes : UInt32
  physicalPackage : Option UInt32
  physicalCore : Option UInt32
  numaNode : Option UInt32
  deriving DecidableEq

structure Pacing where
  durationNs : Int
  intervalNs : Int
  staleAfterNs : Int
  deriving DecidableEq

structure WorkerArgs where
  slot : UInt64
  workers : UInt64
  heartbeatFd : Int
  recordFd : Int
  controlFd : Int
  supervisorPid : Int
  pacing : Pacing
  cpus : List UInt32
  workload : Option WorkloadArgs
  deriving DecidableEq

/-- One re-run's arguments: the unit and where to run it. -/
structure RerunArgs where
  unit : WorkloadArgs
  workloadVersion : UInt32
  iteration : UInt64
  cpu : UInt32
  deriving DecidableEq

def kNanosecondsPerMillisecond : Int := 1000000

/-- The largest millisecond count that still fits in nanoseconds. -/
def kMaxMilliseconds : UInt64 := 9223372036854

def kMaxWorkers : UInt64 := 1024
def kIntMax : UInt64 := 2147483647
def kUint32Max : UInt64 := 4294967295

def kSlot : String := "--slot"
def kWorkers : String := "--workers"
def kHeartbeatFd : String := "--heartbeat-fd"
def kRecordFd : String := "--record-fd"
def kControlFd : String := "--control-fd"
def kSupervisorPid : String := "--supervisor-pid"
def kDurationMs : String := "--duration-ms"
def kIntervalMs : String := "--interval-ms"
def kStaleAfterMs : String := "--stale-after-ms"
def kCpus : String := "--cpus"
def kWorkload : String := "--workload"
def kSeed : String := "--seed"
def kFootprintBytes : String := "--footprint-bytes"
def kThreads : String := "--threads"
def kDecomposition : String := "--decomposition"
def kIsa : String := "--isa"
def kOraclePeriod : String := "--oracle-period"
def kIntegrityPeriod : String := "--integrity-period"
def kLineBytes : String := "--line-bytes"
def kLock : String := "--lock"
def kPhysicalPackage : String := "--physical-package"
def kPhysicalCore : String := "--physical-core"
def kNumaNode : String := "--numa-node"

def kVersion : String := "--version"
def kIteration : String := "--iteration"
def kCpu : String := "--cpu"

def kRequired : List String :=
  [kSlot, kWorkers, kHeartbeatFd, kRecordFd, kControlFd, kSupervisorPid, kDurationMs, kIntervalMs,
   kStaleAfterMs]

/-- The keys that describe the work, required together once a workload is named. -/
def kWorkloadRequired : List String :=
  [kSeed, kFootprintBytes, kThreads, kDecomposition, kIsa, kLock, kOraclePeriod,
   kIntegrityPeriod, kLineBytes]

def kWorkloadOptional : List String := [kPhysicalPackage, kPhysicalCore, kNumaNode]

def kWorkerOptional : List String :=
  [kCpus, kWorkload, kSeed, kFootprintBytes, kThreads, kDecomposition, kIsa, kLock,
   kOraclePeriod, kIntegrityPeriod, kLineBytes, kPhysicalPackage, kPhysicalCore, kNumaNode]

def kRerunRequired : List String :=
  [kWorkload, kSeed, kFootprintBytes, kThreads, kDecomposition, kIsa, kLock, kLineBytes, kVersion,
   kIteration, kCpu]

def refusal (key what : String) : String := key ++ ": " ++ what

/-- A whole non-negative number and nothing else. -/
def numberOf (key text : String) : Except String UInt64 :=
  match splitNumberAndSuffix text with
  | .ok ⟨value, []⟩ => .ok value
  | _ => .error (refusal key ("expected a whole non-negative number, got '" ++ text ++ "'"))

def numberAtMost (key text : String) (limit : UInt64) : Except String UInt64 := do
  let number ← numberOf key text
  if limit < number then
    .error (refusal key (toString number ++ " is past the limit of " ++ toString limit))
  else .ok number

/-- A number that fits 32 bits. -/
def numberOf32 (key text : String) : Except String UInt32 :=
  (numberAtMost key text kUint32Max).map UInt64.toUInt32

def atLeastOne (key : String) (number : UInt64) : Except String Unit :=
  if number = 0 then .error (refusal key "must be at least 1") else .ok ()

def cpusOf (text : String) : Except String (List UInt32) :=
  (text.toList.splitOn ',').mapM fun piece => numberOf32 kCpus (String.ofList piece)

abbrev Values : Type := List (String × String)

def Values.find (values : Values) (key : String) : Option String := List.lookup key values

def Values.contains (values : Values) (key : String) : Bool := (values.find key).isSome

def Values.text (values : Values) (key : String) : String := (values.find key).getD ""

/-- The pairs of a command line, each key known and given once. -/
def collectPairs (known : List String) : Values → List String → Except String Values
  | values, [] => .ok values
  | _, [key] =>
    if key ∉ known then .error (refusal key "not a worker argument")
    else .error (refusal key "missing its value")
  | values, key :: value :: rest =>
    if key ∉ known then .error (refusal key "not a worker argument")
    else if values.contains key then .error (refusal key "given twice")
    else collectPairs known (values ++ [(key, value)]) rest

def collect (args required optional : List String) : Except String Values := do
  let values ← collectPairs (required ++ optional) [] args
  match required.find? fun key => !values.contains key with
  | some key => .error (refusal key "required")
  | none => .ok values

section Options

variable (values : Values)

/-- A time of at least a millisecond, in nanoseconds. -/
def timeOf (key : String) : Except String Int := do
  let ms ← numberAtMost key (values.text key) kMaxMilliseconds
  atLeastOne key ms
  .ok (ms.toNat * kNanosecondsPerMillisecond)

def pacingOf : Except String Pacing := do
  let durationNs ← timeOf values kDurationMs
  let intervalNs ← timeOf values kIntervalMs
  let staleAfterNs ← timeOf values kStaleAfterMs
  if staleAfterNs < intervalNs then
    .error (refusal kStaleAfterMs "must be at least the interval")
  else .ok ⟨durationNs, intervalNs, staleAfterNs⟩

def parseLockPolicy (word : String) : Option LockPolicy :=
  [LockPolicy.kRequire, .kTry, .kNone].find? fun policy => policy.describe == word

def kMaxLineBytes : UInt64 := 4096
def kMinLineBytes : UInt64 := 8

def nameOf : Except String String :=
  let name := values.text kWorkload
  if isValidName name then .ok name
  else .error (refusal kWorkload ("'" ++ name ++ "' is not a workload name"))

def footprintBytesOf : Except String UInt64 := do
  let footprint ← numberOf kFootprintBytes (values.text kFootprintBytes)
  atLeastOne kFootprintBytes footprint
  .ok footprint

def threadsOf : Except String UInt32 := do
  let threads ← numberAtMost kThreads (values.text kThreads) kMaxWorkers
  atLeastOne kThreads threads
  .ok threads.toUInt32

def isaOf : Except String IsaPath :=
  match parseIsaPath (values.text kIsa) with
  | some path => .ok path
  | none =>
    .error (refusal kIsa
      ("'" ++ values.text kIsa ++ "' is none of scalar, avx2, avx512, neon"))

def lockOf : Except String LockPolicy :=
  match parseLockPolicy (values.text kLock) with
  | some policy => .ok policy
  | none => .error (refusal kLock ("'" ++ values.text kLock ++ "' is none of require, try, none"))

def lineBytesOf : Except String UInt32 := do
  let line ← numberAtMost kLineBytes (values.text kLineBytes) kMaxLineBytes
  if line < kMinLineBytes ∨ !hasSingleBit line.toNat then
    .error (refusal kLineBytes "must be a power of two of at least 8")
  else .ok line.toUInt32

def dutyOf (withDuty : Bool) : Except String DutyCycle :=
  if withDuty then do
    let oraclePeriod ← numberOf32 kOraclePeriod (values.text kOraclePeriod)
    let integrityPeriod ← numberOf32 kIntegrityPeriod (values.text kIntegrityPeriod)
    .ok ⟨oraclePeriod, integrityPeriod⟩
  else .ok {}

def placeAt (key : String) : Except String (Option UInt32) :=
  match values.find key with
  | none => .ok none
  | some text => (numberOf32 key text).map some

def workloadOf (withDuty : Bool) : Except String WorkloadArgs := do
  let workload ← nameOf values
  let seed ← numberOf kSeed (values.text kSeed)
  let footprintBytes ← footprintBytesOf values
  let threads ← threadsOf values
  let decomposition ← numberOf32 kDecomposition (values.text kDecomposition)
  let isa ← isaOf values
  let lock ← lockOf values
  let lineBytes ← lineBytesOf values
  let duty ← dutyOf values withDuty
  let physicalPackage ← placeAt values kPhysicalPackage
  let physicalCore ← placeAt values kPhysicalCore
  let numaNode ← placeAt values kNumaNode
  .ok { workload, seed, footprintBytes, threads, decomposition, isa, lock, duty, lineBytes
        physicalPackage, physicalCore, numaNode }

/-- Where a worker sits among the others and what it holds from the controller. -/
structure Endpoints where
  workers : UInt64
  slot : UInt64
  heartbeatFd : Int
  recordFd : Int
  controlFd : Int
  supervisorPid : Int
  deriving DecidableEq

def descriptorOf (key : String) : Except String Int :=
  (numberAtMost key (values.text key) kIntMax).map fun fd => fd.toNat

def parseEndpoints : Except String Endpoints := do
  let workers ← numberAtMost kWorkers (values.text kWorkers) kMaxWorkers
  atLeastOne kWorkers workers
  let slot ← numberAtMost kSlot (values.text kSlot) (workers - 1)
  let heartbeatFd ← descriptorOf values kHeartbeatFd
  let recordFd ← descriptorOf values kRecordFd
  let controlFd ← descriptorOf values kControlFd
  let pid ← numberAtMost kSupervisorPid (values.text kSupervisorPid) kIntMax
  atLeastOne kSupervisorPid pid
  .ok { workers, slot, heartbeatFd, recordFd, controlFd, supervisorPid := pid.toNat }

def parseCpus : Except String (List UInt32) :=
  match values.find kCpus with
  | none => .ok []
  | some text => cpusOf text

def parseWork : Except String (Option WorkloadArgs) :=
  if values.contains kWorkload then
    match kWorkloadRequired.find? fun key => !values.contains key with
    | some key => .error (refusal key "required with --workload")
    | none => (workloadOf values true).map some
  else
    match (kWorkloadRequired ++ kWorkloadOptional).find? values.contains with
    | some key => .error (refusal key "needs --workload")
    | none => .ok none

end Options

def parseArgs (args : List String) : Except String WorkerArgs := do
  let values ← collect args kRequired kWorkerOptional
  let endpoints ← parseEndpoints values
  let pacing ← pacingOf values
  let cpus ← parseCpus values
  let workload ← parseWork values
  .ok { slot := endpoints.slot, workers := endpoints.workers, heartbeatFd := endpoints.heartbeatFd
        recordFd := endpoints.recordFd, controlFd := endpoints.controlFd
        supervisorPid := endpoints.supervisorPid, pacing, cpus, workload }

def parseRerunArgs (args : List String) : Except String RerunArgs := do
  let values ← collect args kRerunRequired []
  let unit ← workloadOf values false
  let workloadVersion ← numberOf32 kVersion (values.text kVersion)
  let iteration ← numberOf kIteration (values.text kIteration)
  let cpu ← numberOf32 kCpu (values.text kCpu)
  .ok { unit, workloadVersion, iteration, cpu }

def inMilliseconds (ns : Int) : String := toString (ns.tdiv kNanosecondsPerMillisecond)

def placeArgument (key : String) (place : Option UInt32) : Values :=
  match place with
  | some id => [(key, toString id)]
  | none => []

def unitArguments (args : WorkloadArgs) (withDuty : Bool) : Values :=
  [(kWorkload, args.workload), (kSeed, toString args.seed),
   (kFootprintBytes, toString args.footprintBytes), (kThreads, toString args.threads),
   (kDecomposition, toString args.decomposition), (kIsa, args.isa.describe),
   (kLock, args.lock.describe), (kLineBytes, toString args.lineBytes)] ++
  (if withDuty then
    [(kOraclePeriod, toString args.duty.oraclePeriod),
     (kIntegrityPeriod, toString args.duty.integrityPeriod)] else [])

/-- The arguments of a unit of work, with their values. -/
def addWorkload (args : WorkloadArgs) (withDuty : Bool) : Values :=
  unitArguments args withDuty ++ placeArgument kPhysicalPackage args.physicalPackage ++
  placeArgument kPhysicalCore args.physicalCore ++ placeArgument kNumaNode args.numaNode

def endpointArguments (args : WorkerArgs) : Values :=
  [(kSlot, toString args.slot), (kWorkers, toString args.workers),
   (kHeartbeatFd, toString args.heartbeatFd), (kRecordFd, toString args.recordFd),
   (kControlFd, toString args.controlFd), (kSupervisorPid, toString args.supervisorPid),
   (kDurationMs, inMilliseconds args.pacing.durationNs),
   (kIntervalMs, inMilliseconds args.pacing.intervalNs),
   (kStaleAfterMs, inMilliseconds args.pacing.staleAfterNs)]

def cpuArgument (cpus : List UInt32) : Values :=
  if cpus = [] then [] else [(kCpus, ",".intercalate (cpus.map toString))]

/-- Every argument of a worker, with its value, in the order they are written. -/
def arguments (args : WorkerArgs) : Values :=
  endpointArguments args ++ cpuArgument args.cpus ++
    match args.workload with
    | some work => addWorkload work true
    | none => []

def kWorkerSwitch : String := "--worker"

/-- The command line a controller starts a worker with. -/
def argvFor (executable : String) (args : WorkerArgs) : List String :=
  executable :: kWorkerSwitch :: (arguments args).flatMap fun each => [each.1, each.2]

def kRerunSwitch : String := "--rerun"

def rerunArguments (args : RerunArgs) : Values :=
  addWorkload args.unit false ++
    [(kVersion, toString args.workloadVersion), (kIteration, toString args.iteration),
     (kCpu, toString args.cpu)]

/-- The command line a controller starts a re-run with. -/
def rerunArgvFor (executable : String) (args : RerunArgs) : List String :=
  executable :: kRerunSwitch :: (rerunArguments args).flatMap fun each => [each.1, each.2]

end LoadForge.Worker
