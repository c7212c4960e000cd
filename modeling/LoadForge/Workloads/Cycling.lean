import LoadForge.Workloads.Mixed

namespace LoadForge.Mixed

open Framework Worker

inductive CycleKind
  | kLoad | kCores
  deriving DecidableEq

def CycleKind.describe : CycleKind → String
  | .kLoad => "load"
  | .kCores => "cores"

structure CyclingOptions where
  kind : CycleKind := .kLoad
  workers : Nat := 0
  durationNs : Int64 := 0
  dwellNs : Int64 := 0
  periodNs : Int64 := 1000000000

/-- How much of every period is busy, in thousandths; 0 is paused. -/
structure LoadLevel where
  busyPermille : UInt16
  name : String

def kLoadLevels : List LoadLevel :=
  [⟨0, "idle"⟩, ⟨1000, "heavy"⟩, ⟨500, "moderate"⟩, ⟨1000, "heavy"⟩]

/-- The shares of the workers that work, in thousandths. -/
def kCoreLevels : List UInt16 := [125, 500, 1000, 250, 1000]

/-- What a worker is doing, as the schedule has left it. -/
structure State where
  paused : Bool := false
  busyPermille : UInt16 := 1000
  deriving DecidableEq

/-- The commands that bring a worker to a level of load, and what it does then. -/
def towardsLoad (state : State) (busyPermille : UInt16) (periodNs : Int) : List Command × State :=
  if busyPermille = 0 then
    (if state.paused then [] else [.pause], { state with paused := true })
  else
    ((if state.paused then [.resume] else []) ++
      (if state.busyPermille ≠ busyPermille then [.setDuty ⟨busyPermille, periodNs⟩] else []),
      ⟨false, busyPermille⟩)

/-- What a level asks for: how many workers work, and how busy they are. -/
structure Level where
  name : String
  working : Nat
  busyPermille : UInt16

def levelOf (options : CyclingOptions) (level : Nat) : Option Level :=
  match options.kind with
  | .kLoad =>
    kLoadLevels[level % kLoadLevels.length]?.map fun each =>
      ⟨each.name, options.workers, each.busyPermille⟩
  | .kCores =>
    kCoreLevels[level % kCoreLevels.length]?.map fun share =>
      let working := max 1 (options.workers * share.toNat % 2 ^ 64 / 1000)
      ⟨toString working ++ " of " ++ toString options.workers, working, 1000⟩

def wantedOf (options : CyclingOptions) (each : Level) (slot : Nat) : UInt16 :=
  match options.kind with
  | .kLoad => each.busyPermille
  | .kCores => if slot < each.working then 1000 else 0

def levelsOf (options : CyclingOptions) : Option Nat :=
  (intervalsIn options.durationNs options.dwellNs).map fun intervals => (intervals + 1) % 2 ^ 64

def cyclingWorkload (options : CyclingOptions) : String := "cycling " ++ options.kind.describe

/-- What the workers are told at a level, those of them that are told something. -/
def tellAll (told : List (Nat × List Command × State)) : List WorkerCommands :=
  told.filterMap fun each => if each.2.1.isEmpty then none else some ⟨each.1, each.2.1⟩

def nextLevel (options : CyclingOptions) (made : List Step × List State) (level : Nat) :
    Option (List Step × List State) := do
  let atNs ← signed (level * options.dwellNs.toInt)
  let each ← levelOf options level
  let told := made.2.zipIdx.map fun entry =>
    (entry.2, towardsLoad entry.1 (wantedOf options each entry.2) options.periodNs.toInt)
  some (made.1 ++ [⟨atNs, bounded ("c" ++ toString level ++ " " ++ each.name),
    cyclingWorkload options, tellAll told⟩], told.map fun each => each.2.2)

/-- The schedule, or why the options make none; nothing where the arithmetic has no result. -/
def makeCycling (options : CyclingOptions) : Option (Except String Schedule) :=
  if options.workers = 0 then some (.error "a cycling schedule needs at least one worker")
  else if options.durationNs.toInt ≤ 0 ∨ options.dwellNs.toInt ≤ 0 ∨ options.periodNs.toInt ≤ 0 then
    some (.error "the duration, the dwell of a level and the period must be positive")
  else do
    let levels ← levelsOf options
    if kMaxSteps < levels then
      some (.error ("a level every " ++ toString (options.dwellNs.toInt.tdiv 1000000) ++
        " ms for " ++ toString (options.durationNs.toInt.tdiv 1000000) ++ " ms is more than " ++
        toString kMaxSteps ++ " steps"))
    else if kMaxCommands / levels < options.workers then
      some (.error (toString options.workers ++ " worker(s) over " ++ toString levels ++
        " levels is more than " ++ toString kMaxCommands ++ " commands"))
    else do
      let (steps, _) ← (List.range levels).foldlM (nextLevel options)
        ([], List.replicate options.workers {})
      some (.ok
        { workers := options.workers
          phase := "run"
          workload := cyclingWorkload options
          steps })

end LoadForge.Mixed
