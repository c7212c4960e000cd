import LoadForge.Primitives.Dispatch

namespace LoadForge.Workloads

open Primitives

inductive DeterminismClass
  | kBitExact | kBitExactFixedDecomposition | kBoundedResidual
  deriving DecidableEq

inductive Contract
  | kExact | kBounded
  deriving DecidableEq

structure Descriptor where
  name : String
  version : UInt32 := 1
  determinism : DeterminismClass := .kBitExact
  contract : Contract := .kExact
  paths : IsaSet := .of [.kScalar]

def isNameChar (c : Char) : Bool :=
  ('a' ≤ c && c ≤ 'z') || ('0' ≤ c && c ≤ '9') || c == '_'

/-- A workload's name: a lower-case letter, then letters, digits and underscores. -/
def isValidName (name : String) : Bool :=
  match name.toList with
  | [] => false
  | c :: cs => ('a' ≤ c && c ≤ 'z') && (c :: cs).all isNameChar

structure WorkloadConfig where
  seed : UInt64
  footprintBytes : UInt64
  decomposition : UInt32
  isa : IsaPath

inductive WorkloadFault
  | kUnknownWorkload | kConfiguration | kFootprintTooSmall
  deriving DecidableEq

def WorkloadFault.describe : WorkloadFault → String
  | .kUnknownWorkload => "unknown workload"
  | .kConfiguration => "configuration outside the workload's domain"
  | .kFootprintTooSmall => "footprint too small for one unit"

structure WorkloadError where
  fault : WorkloadFault
  detail : String
  deriving DecidableEq

/-- At least one unit, and the units fit the footprint. -/
structure Plan (footprintBytes : UInt64) where
  inputBytes : UInt64
  outputBytes : UInt64
  scratchBytes : UInt64
  units : UInt64
  decomposition : UInt32
  logicalBytes : UInt64
  operations : UInt64
  input_pos : 0 < inputBytes.toNat
  output_pos : 0 < outputBytes.toNat
  units_pos : 0 < units.toNat
  fits : units.toNat * (inputBytes.toNat + outputBytes.toNat) ≤ footprintBytes.toNat

/-- A workload, configured, as far as planning reads it. -/
structure Workload (config : WorkloadConfig) where
  descriptor : Descriptor
  plan : Plan config.footprintBytes

/-- Every workload a build contains, by name, with the contract its makers keep. -/
structure Registry where
  names : List String
  descriptor : String → Except WorkloadError Descriptor
  create : (name : String) → (config : WorkloadConfig) → Except WorkloadError (Workload config)
  names_valid : ∀ name ∈ names, isValidName name = true

theorem Plan.footprint_pos {footprintBytes : UInt64} (plan : Plan footprintBytes) :
    0 < footprintBytes.toNat := by
  have hunit : 0 < plan.units.toNat * (plan.inputBytes.toNat + plan.outputBytes.toNat) :=
    Nat.mul_pos plan.units_pos (Nat.add_pos_left plan.input_pos _)
  exact Nat.lt_of_lt_of_le hunit plan.fits

end LoadForge.Workloads
