import Mathlib.Data.List.Destutter
import LoadForge.Workloads.Schedule

namespace LoadForge.Mixed

open Framework Worker Workloads Verification

def kMaxSteps : Nat := 100000
def kMaxCommands : Nat := 4000000

/-- The result of signed arithmetic, and nothing where it overflows. -/
def signed (value : Int) : Option Int :=
  if -2 ^ 63 ≤ value ∧ value < 2 ^ 63 then some value else none

/-- How many whole intervals after the start are inside of a run. A division by zero has no
result. -/
def intervalsIn (durationNs intervalNs : Int64) : Option Nat := do
  let last ← signed (durationNs.toInt - 1)
  if intervalNs = 0 then none
  else do
    let intervals ← signed (last.tdiv intervalNs.toInt)
    some (intervals % 2 ^ 64).toNat

/-- A workload a schedule may use and the least footprint it accepts. -/
structure RosterEntry where
  name : String
  minFootprintBytes : UInt64
  deriving DecidableEq

inductive Intensity
  | kCompute | kMemory | kBalanced
  deriving DecidableEq

structure MixedOptions where
  workers : Nat := 0
  seed : UInt64 := 1
  durationNs : Int64 := 0
  rotationNs : Int64 := 0
  footprintBytes : UInt64 := 0
  placements : List (List UInt32) := []
  duty : DutyCycle := {}

section Roster

def kLeast : UInt64 := (64 : UInt64) <<< 10

/-- Whether the registry makes the workload at a footprint. -/
def creatable (registry : Registry) (name : String) (footprint : UInt64) : Bool :=
  (registry.create name ⟨1, footprint, 0, .kScalar⟩).isOk

/-- The least doubling of one at which the workload is made. -/
def leastFrom (registry : Registry) (name : String) (ceilingBytes : UInt64) :
    Nat → UInt64 → Option UInt64
  | 0, _ => none
  | rounds + 1, footprint =>
    if footprint ≤ ceilingBytes then
      if creatable registry name footprint then some footprint
      else if ceilingBytes / 2 < footprint then none
      else leastFrom registry name ceilingBytes rounds (footprint * 2)
    else none

/-- Every workload that can be made within the ceiling, with the least footprint it accepts. -/
def rosterOf (registry : Registry) (ceilingBytes : UInt64) : List RosterEntry :=
  registry.names.filterMap fun name =>
    (leastFrom registry name ceilingBytes 64 kLeast).map fun footprint => ⟨name, footprint⟩

end Roster

section Choices

def mix (value : UInt64) : UInt64 :=
  let value := value + 0x9E3779B97F4A7C15
  let value := (value ^^^ (value >>> 30)) * 0xBF58476D1CE4E5B9
  let value := (value ^^^ (value >>> 27)) * 0x94D049BB133111EB
  value ^^^ (value >>> 31)

inductive Purpose
  | kPick | kSeed | kSize
  deriving DecidableEq

def Purpose.number : Purpose → UInt64
  | .kPick => 1
  | .kSeed => 2
  | .kSize => 3

def draw (seed rotation slot : UInt64) (purpose : Purpose) : UInt64 :=
  mix (seed + mix (rotation + mix (slot + mix purpose.number)))

inductive Kind
  | kCompute | kMemory | kBalanced | kMixed | kJoin | kMove
  deriving DecidableEq

def nameOf : Kind → String
  | .kCompute => "compute-heavy"
  | .kMemory => "memory-heavy"
  | .kBalanced => "balanced"
  | .kMixed => "mixed"
  | .kJoin => "all-join"
  | .kMove => "move"

/-- The order phases come in; a move replaces every third. -/
def kPlan : List Kind := [.kMixed, .kCompute, .kMemory, .kBalanced, .kJoin]
def kMoveEvery : Nat := 3

def kComputeNames : List String := ["dense_linear", "fft", "monte_carlo", "particles", "raytrace"]
def kMemoryNames : List String := ["adaptive_mesh", "graph", "sort", "sparse", "stencil"]

def classify (workload : String) : Intensity :=
  if workload ∈ kComputeNames then .kCompute
  else if workload ∈ kMemoryNames then .kMemory
  else .kBalanced

def poolOf (usable : List RosterEntry) (wanted : Intensity) : List RosterEntry :=
  usable.filter fun entry => classify entry.name = wanted

def narrowed (kind : Kind) (usable : List RosterEntry) (slot : Nat) : List RosterEntry :=
  match kind with
  | .kCompute => poolOf usable .kCompute
  | .kMemory => poolOf usable .kMemory
  | .kBalanced => poolOf usable (if slot % 2 = 0 then .kCompute else .kMemory)
  | _ => []

def poolFor (kind : Kind) (usable : List RosterEntry) (slot : Nat) : List RosterEntry :=
  if (narrowed kind usable slot).isEmpty then usable else narrowed kind usable slot

/-- The workload a worker runs in a rotation. There is none to pick in an empty pool. -/
def pick (kind : Kind) (usable : List RosterEntry) (seed : UInt64) (rotation slot : Nat) :
    Option RosterEntry :=
  let pool := poolFor kind usable slot
  let spread := if kind = .kJoin then 0 else UInt64.ofNat slot
  pool[(draw seed (UInt64.ofNat rotation) 0 .kPick + spread).toNat % pool.length]?

def assignment (entry : RosterEntry) (options : MixedOptions) (rotation slot : Nat) : Switch :=
  let half := draw options.seed (UInt64.ofNat rotation) (UInt64.ofNat slot) .kSize &&& 1 ≠ 0
  let size := if half then options.footprintBytes / 2 else options.footprintBytes
  { workload := entry.name
    seed := draw options.seed (UInt64.ofNat rotation) (UInt64.ofNat slot) .kSeed
    footprintBytes := if size < entry.minFootprintBytes then options.footprintBytes else size
    decomposition := 0
    duty := options.duty }

end Choices

section Making

def joinNames (names : List String) : String :=
  names.foldl (fun label name => label ++ (if label.isEmpty then "" else "+") ++ name) ""

def labelOf (changes : List Switch) : String :=
  let names := (changes.map Switch.workload).mergeSort fun a b => decide (a ≤ b)
  bounded (joinNames (names.destutter (· ≠ ·)))

def phaseOf (rotation : Nat) (kind : Kind) : String :=
  bounded ("r" ++ toString rotation ++ " " ++ nameOf kind)

variable (options : MixedOptions)

def rotationsOf : Option Nat :=
  intervalsIn options.durationNs options.rotationNs

def refusalOf : Option (Option String) :=
  if options.workers = 0 then some (some "a mixed schedule needs at least one worker")
  else if options.durationNs.toInt ≤ 0 ∨ options.rotationNs.toInt ≤ 0 then
    some (some "the duration and the rotation interval must be positive")
  else if options.footprintBytes = 0 then some (some "a mixed schedule needs a footprint")
  else do
    let rotations ← rotationsOf options
    if kMaxSteps < rotations then
      some (some ("a rotation every " ++ toString (options.rotationNs.toInt.tdiv 1000000) ++
        " ms for " ++ toString (options.durationNs.toInt.tdiv 1000000) ++ " ms is more than " ++
        toString kMaxSteps ++ " steps"))
    else if kMaxCommands / (rotations + 1) < options.workers then
      some (some (toString options.workers ++ " worker(s) over " ++ toString rotations ++
        " steps is more than " ++ toString kMaxCommands ++ " commands"))
    else if options.placements.length = 1 then
      some (some "workers move across at least two sets of CPUs, not one")
    else if options.placements.any fun cpus => !isValid (.rebind cpus) then
      some (some "a set of CPUs to move across is empty, unordered or past CPU 1023")
    else some none

def movesAt (rotation : Nat) : Bool :=
  !options.placements.isEmpty && rotation % kMoveEvery == 0

def whereOf (rotation slot : Nat) : Nat :=
  (slot + rotation / kMoveEvery) % options.placements.length

def kindAt (rotation : Nat) : Option Kind :=
  if movesAt options rotation then some .kMove else kPlan[rotation % kPlan.length]?

def commandOf (kind : Kind) (usable : List RosterEntry) (options : MixedOptions)
    (rotation slot : Nat) : Option Command :=
  if movesAt options rotation then
    options.placements[whereOf options rotation slot]?.map Command.rebind
  else
    (pick kind usable options.seed rotation slot).map fun entry =>
      .switch (assignment entry options rotation slot)

def changesOf (each : WorkerCommands) : List Switch :=
  each.commands.filterMap fun command =>
    match command with
    | .switch change => some change
    | _ => none

/-- One rotation, and the label of what the machine does from then on. -/
def stepOf (rotation : Nat) (usable : List RosterEntry) (options : MixedOptions)
    (current : String) : Option (Step × String) := do
  let atNs ← signed (rotation * options.rotationNs.toInt)
  let kind ← kindAt options rotation
  let workers ← (List.range options.workers).mapM fun slot =>
    (commandOf kind usable options rotation slot).map fun command =>
      (⟨slot, [command]⟩ : WorkerCommands)
  let current :=
    if movesAt options rotation then current else labelOf (workers.flatMap changesOf)
  some (⟨atNs, phaseOf rotation kind, current, workers⟩, current)

def nextStep (usable : List RosterEntry) (options : MixedOptions)
    (made : List Step × String) (rotation : Nat) : Option (List Step × String) := do
  let (step, current) ← stepOf rotation usable options made.2
  some (made.1 ++ [step], current)

def scheduleOf (usable : List RosterEntry) (options : MixedOptions) : Option Schedule := do
  let first ← (List.range options.workers).mapM fun slot =>
    (pick .kMixed usable options.seed 0 slot).map fun entry => assignment entry options 0 slot
  let rotations ← rotationsOf options
  let (steps, _) ← (List.range' 1 rotations).foldlM (nextStep usable options) ([], labelOf first)
  some
    { workers := options.workers
      start := first.map fun change => ⟨change.workload, change.footprintBytes⟩
      phase := phaseOf 0 .kMixed
      workload := labelOf first
      steps }

/-- The schedule, or why the options make none; nothing where the arithmetic has no result. -/
def makeMixed (roster : List RosterEntry) (options : MixedOptions) :
    Option (Except String Schedule) := do
  match ← refusalOf options with
  | some refused => some (.error refused)
  | none =>
    let usable := roster.filter fun entry => entry.minFootprintBytes ≤ options.footprintBytes
    if usable.isEmpty then
      some (.error ("no workload of the roster accepts a footprint of " ++
        toString options.footprintBytes ++ " bytes"))
    else (scheduleOf usable options).map .ok

end Making

end LoadForge.Mixed
