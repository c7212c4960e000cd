import Mathlib.Tactic.Ring

namespace LoadForge.Config

/-- A size in bytes, or a share of what is available in whole percent. -/
inductive ByteSize
  | bytes (count : UInt64)
  | percent (whole : UInt64) (hpos : 1 ≤ whole.toNat) (hmax : whole.toNat ≤ 100)
  deriving DecidableEq

def kKiB : Nat := 1024

/-- The units a byte count is printed in, the largest first. -/
def unitsDescending : List (String × Nat) :=
  [("TiB", kKiB ^ 4), ("GiB", kKiB ^ 3), ("MiB", kKiB ^ 2), ("KiB", kKiB), ("B", 1)]

def ByteSize.toText : ByteSize → String
  | .percent whole _ _ => toString whole ++ "%"
  | .bytes count =>
    match unitsDescending.find? fun unit => count ≠ 0 ∧ count.toNat % unit.2 = 0 with
    | some (suffix, scale) => toString (count.toNat / scale) ++ suffix
    | none => toString count ++ "B"

/-- How many threads a workload runs: a count, where 0 stands for every CPU. -/
structure Threads where
  count : UInt32
  deriving DecidableEq

def Threads.isAll (t : Threads) : Bool := t.count == 0

inductive Mode
  | kBenchmark | kStress | kExplore
  deriving DecidableEq

structure Run where
  mode : Mode := .kStress
  durationNs : Int := 0
  deriving DecidableEq

structure Limits where
  maxTemperatureC : Option Int := none
  memory : Option ByteSize := none
  deriving DecidableEq

structure Workload where
  name : String
  threads : Threads := ⟨0⟩
  enabled : Bool := true
  memory : Option ByteSize := none
  deriving DecidableEq

structure ConfigError where
  origin : String
  key : String
  line : UInt32
  message : String
  deriving DecidableEq

def ConfigError.describe (e : ConfigError) : String :=
  let place := if e.line = 0 then e.origin else e.origin ++ ":" ++ toString e.line
  (if place = "" then "" else place ++ ": ") ++ (if e.key = "" then "" else e.key ++ ": ") ++
    e.message

structure MemoryBudget where
  availableBytes : UInt64
  cgroupLimitBytes : Option UInt64 := none
  deriving DecidableEq

def ceilingOf (budget : MemoryBudget) : UInt64 :=
  match budget.cgroupLimitBytes with
  | some limit => min budget.availableBytes limit
  | none => budget.availableBytes

/-- The bytes of a configured footprint; a share is rounded down. -/
def resolveMemory (size : ByteSize) (budget : MemoryBudget) (key : String) :
    Except ConfigError UInt64 :=
  let ceiling := ceilingOf budget
  match size with
  | .bytes wanted =>
    if ceiling < wanted then
      .error ⟨"", key, 0, "requests " ++ toString wanted ++ " bytes but the machine can offer " ++
        toString ceiling⟩
    else .ok wanted
  | .percent whole _ _ => .ok (ceiling / 100 * whole + ceiling % 100 * whole / 100)

end LoadForge.Config

structure LoadForge.Config where
  run : LoadForge.Config.Run := {}
  limits : LoadForge.Config.Limits := {}
  workloads : List LoadForge.Config.Workload
  deriving DecidableEq
