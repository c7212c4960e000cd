import LoadForge.Verification.Record

namespace LoadForge.Verification

open Framework

inductive DecodeFault
  | kEmpty | kVersion | kKind | kTruncated | kTrailing | kInvalid
  deriving DecidableEq

def DecodeFault.describe : DecodeFault → String
  | .kEmpty => "empty"
  | .kVersion => "unknown format version"
  | .kKind => "unknown record kind"
  | .kTruncated => "truncated"
  | .kTrailing => "trailing bytes"
  | .kInvalid => "invalid record"

structure DecodeError where
  fault : DecodeFault
  detail : String
  deriving DecidableEq

/-- What is left to read, and the offset in the record where it starts. -/
structure Cursor where
  offset : Nat
  rest : List UInt8

/-- A reader of fields: the first field that cannot be read is the answer. -/
def Reader (α : Type) : Type := Cursor → Except DecodeError (α × Cursor)

namespace Reader

instance : Monad Reader where
  pure a := fun c => .ok (a, c)
  bind r f := fun c =>
    match r c with
    | .error e => .error e
    | .ok (a, c') => f a c'

def fail {α : Type} (fault : DecodeFault) (detail : String) : Reader α :=
  fun _ => .error ⟨fault, detail⟩

def position : Reader Nat := fun c => .ok (c.offset, c)

variable (field : String)

def place (offset : Nat) : String :=
  "field '" ++ field ++ "' at byte " ++ toString offset

/-- The next `count` bytes, refused as truncated when they are not there. -/
def take (count : Nat) : Reader (List UInt8) := fun c =>
  if count ≤ c.rest.length then
    .ok (c.rest.take count, ⟨c.offset + count, c.rest.drop count⟩)
  else
    .error ⟨.kTruncated, place field c.offset ++ " needs " ++ toString count ++ " byte(s), " ++
      toString c.rest.length ++ " remain"⟩

def unsignedLe (width : Nat) : Reader Nat := do
  return leNat (← take field width)

def u8 : Reader UInt8 := do return UInt8.ofNat (← unsignedLe field 1)

def u32 : Reader UInt32 := do return UInt32.ofNat (← unsignedLe field 4)

def u64 : Reader UInt64 := do return UInt64.ofNat (← unsignedLe field 8)

/-- A length, refused above `limit` before it is trusted for anything, then that many bytes. -/
def raw (field what : String) (limit : Nat) : Reader (List UInt8) := do
  let offset ← position
  let length ← u64 field
  if limit < length.toNat then
    fail .kInvalid (place field offset ++ ": " ++ what ++ " of " ++ toString length ++
      " bytes, more than the " ++ toString limit ++ " a record carries")
  else take field length.toNat

def text : Reader (List UInt8) := raw field "a text" kMaxTextBytes

def window : Reader (List UInt8) := raw field "a window" kMaxWindowBytes

def presence : Reader Bool := do
  let offset ← position
  let flag ← u8 field
  if 1 < flag then
    fail .kInvalid (place field offset ++ ": presence flag " ++ toString flag ++
      ", neither 0 nor 1")
  else return flag = 1

/-- A presence flag, and the value only when it is set. -/
def optional {α : Type} (field : String) (value : Reader α) : Reader (Option α) := do
  if ← presence field then return some (← value) else return none

def optionalU8 : Reader (Option UInt8) := optional field (u8 field)

def optionalU32 : Reader (Option UInt32) := optional field (u32 field)

def optionalU64 : Reader (Option UInt64) := optional field (u64 field)

end Reader

open Reader

def getDuty : Reader DutyCycle := do
  let oracle ← u32 "duty"
  let integrity ← u32 "duty"
  return ⟨oracle, integrity⟩

def getProvenance : Reader Provenance := do
  let logicalCpu ← optionalU32 "logical_cpu"
  let physicalCore ← optionalU32 "physical_core"
  let numaNode ← optionalU32 "numa_node"
  let bufferAddress ← optionalU64 "buffer_address"
  let bufferOffset ← optionalU64 "buffer_offset"
  let iteration ← optionalU64 "iteration"
  let workload ← optional "workload" (text "workload")
  let workloadVersion ← optionalU32 "workload_version"
  let seed ← optionalU64 "seed"
  let isa ← optionalU8 "isa"
  let inputIntegrity ← optionalU8 "input_integrity"
  let duty ← optional "duty" getDuty
  let physicalPackage ← optionalU32 "physical_package"
  let decomposition ← optionalU32 "decomposition"
  let footprintBytes ← optionalU64 "footprint_bytes"
  return { logicalCpu, physicalPackage, physicalCore, numaNode, bufferAddress, bufferOffset,
           iteration, workload, workloadVersion, seed, isa, inputIntegrity, duty, decomposition,
           footprintBytes }

def getDifference : Reader Difference := do
  let domain ← u8 "domain"
  let firstOffset ← u64 "first_offset"
  let lastOffset ← u64 "last_offset"
  let popcount ← u64 "popcount"
  let windowOffset ← u64 "window_offset"
  let expected ← window "expected"
  let actual ← window "actual"
  return { domain, firstOffset, lastOffset, popcount, windowOffset, expected, actual }

def getExact (provenance : Provenance) : Reader ErrorRecord := do
  let side ← u8 "side"
  let check ← text "check"
  let lineBytes ← u32 "line_bytes"
  let difference ← optional "difference" getDifference
  return .exact { provenance, side, check, difference, lineBytes }

def getNumerical (provenance : Provenance) : Reader ErrorRecord := do
  let check ← text "check"
  let residual ← u64 "residual"
  let tolerance ← u64 "tolerance"
  let conditionNumber ← optional "condition_number" (u64 "condition_number")
  let element ← optionalU64 "element"
  return .numerical { provenance, check, residual, tolerance, conditionNumber, element }

def getNotPerformed (provenance : Provenance) : Reader ErrorRecord := do
  let what ← text "what"
  let why ← text "why"
  let blocksCompared ← u64 "blocks_compared"
  return .notPerformed { provenance, what, why, blocksCompared }

def kHeaderBytes : Nat := 2

/-- The fields of a record of a kind, provenance first. -/
def getRecord (kind : UInt8) : Reader ErrorRecord := do
  let provenance ← getProvenance
  if kind = 1 then getExact provenance
  else if kind = 2 then getNumerical provenance
  else getNotPerformed provenance

/-- The record the bytes describe, or why they describe none. -/
def decode (shortest : UInt64 → String) (bytes : List UInt8) : Except DecodeError ErrorRecord :=
  match bytes with
  | [] => .error ⟨.kEmpty, "no bytes: a record is at least its format version and its kind"⟩
  | version :: rest =>
    if version ≠ kRecordFormatVersion then
      .error ⟨.kVersion, "byte 0 is format version " ++ toString version ++
        "; this build reads version " ++ toString kRecordFormatVersion⟩
    else
      match rest with
      | [] => .error ⟨.kTruncated, "the bytes end after the format version"⟩
      | kind :: fields =>
        if kind < 1 ∨ 3 < kind then
          .error ⟨.kKind, "byte 1 is kind " ++ toString kind ++ "; the kinds are 1, 2 and 3"⟩
        else
          match getRecord kind ⟨kHeaderBytes, fields⟩ with
          | .error e => .error e
          | .ok (record, left) =>
            match brokenRule shortest record with
            | some rule => .error ⟨.kInvalid, rule⟩
            | none =>
              if left.rest.length ≠ 0 then
                .error ⟨.kTrailing, toString left.rest.length ++
                  " byte(s) after the record, which ends at byte " ++ toString left.offset⟩
              else .ok record

end LoadForge.Verification
