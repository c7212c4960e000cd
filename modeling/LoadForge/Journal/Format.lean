import LoadForge.Core.Crc32
import LoadForge.Framework.Framing

namespace LoadForge.Journal

open LoadForge.Core Framework

def kMaxLabelBytes : Nat := 64
def kHeaderBytes : Nat := 8
def kMaxPayloadBytes : Nat := 512
def kEntry : UInt8 := 1
def kTerminator : UInt8 := 2
def kOptionalFields : Nat := 6

def kEntryFixedBytes : Nat := 1 + 8 + 1 + 1 + 1 + 8 * kOptionalFields + 4 + 4

def kPhaseSizeAt : Nat := 10

/-- One moment of the run. A double is its bits. -/
structure Entry where
  elapsedNs : Int64 := 0
  phase : List UInt8 := []
  workload : List UInt8 := []
  lastVerifiedUnit : Option UInt64 := none
  temperatureC : Option UInt64 := none
  packagePowerW : Option UInt64 := none
  frequencyHz : Option UInt64 := none
  eccCorrected : Option UInt64 := none
  eccUncorrected : Option UInt64 := none
  workersAlive : UInt32 := 0
  workersStale : UInt32 := 0
  deriving DecidableEq

inductive Ending
  | kEmpty | kTerminated | kUnterminated | kTornTail | kCorrupt
  deriving DecidableEq

structure Replay where
  entries : List Entry
  ending : Ending
  deriving DecidableEq

/-- The check of a record covers its length as well as its payload. -/
def check (lengthBytes payload : List UInt8) : UInt32 :=
  crc32Update (crc32 lengthBytes) payload

def frame (payload : List UInt8) : List UInt8 :=
  leBytes 4 payload.length ++
    (leBytes 4 (check (leBytes 4 payload.length) payload).toNat ++ payload)

def putLabel (label : List UInt8) : List UInt8 := leBytes 1 label.length ++ label

def Entry.optionals (e : Entry) : List (Option UInt64) :=
  [e.lastVerifiedUnit, e.temperatureC, e.packagePowerW, e.frequencyHz, e.eccCorrected,
   e.eccUncorrected]

/-- One bit for each optional that is there, the first of them lowest. -/
def presentBits : List (Option UInt64) → Nat
  | [] => 0
  | o :: os => o.isSome.toNat + 2 * presentBits os

def putOptional (o : Option UInt64) : List UInt8 := leBytes 8 (o.getD 0).toNat

def encodeEntry (e : Entry) : List UInt8 :=
  [kEntry] ++ (leBytes 8 e.elapsedNs.toUInt64.toNat ++ (leBytes 1 (presentBits e.optionals) ++
    (putLabel e.phase ++ (putLabel e.workload ++ (e.optionals.flatMap putOptional ++
      (leBytes 4 e.workersAlive.toNat ++ leBytes 4 e.workersStale.toNat))))))

def terminatorPayload : List UInt8 := [kTerminator]

/-- The next bytes of a payload. A read past its end fails the decoding as a whole. -/
def take (count : Nat) (bytes : List UInt8) : Option (List UInt8 × List UInt8) :=
  if count ≤ bytes.length then some (bytes.take count, bytes.drop count) else none

def number (width : Nat) (bytes : List UInt8) : Option (Nat × List UInt8) :=
  (take width bytes).map fun (field, rest) => (leNat field, rest)

def takeLabel (bytes : List UInt8) : Option (List UInt8 × List UInt8) := do
  let (size, rest) ← number 1 bytes
  if kMaxLabelBytes < size then none else take size rest

/-- The optionals, by their presence bits. The bytes of an absent one are zero. -/
def takeOptionals : Nat → Nat → List UInt8 → Option (List (Option UInt64) × List UInt8)
  | 0, _, bytes => some ([], bytes)
  | count + 1, present, bytes => do
    let (value, rest) ← number 8 bytes
    if present % 2 = 1 then
      let (optionals, rest) ← takeOptionals count (present / 2) rest
      return (some (UInt64.ofNat value) :: optionals, rest)
    else if value ≠ 0 then none
    else
      let (optionals, rest) ← takeOptionals count (present / 2) rest
      return (none :: optionals, rest)

def decodeEntry (payload : List UInt8) : Option Entry := do
  let (_, rest) ← take 1 payload
  let (elapsed, rest) ← number 8 rest
  let elapsedNs := (UInt64.ofNat elapsed).toInt64
  if elapsedNs < 0 then none
  else
    let (present, rest) ← number 1 rest
    if 2 ^ kOptionalFields ≤ present then none
    else
      let (phase, rest) ← takeLabel rest
      let (workload, rest) ← takeLabel rest
      let (optionals, rest) ← takeOptionals kOptionalFields present rest
      let (alive, rest) ← number 4 rest
      let (stale, rest) ← number 4 rest
      match optionals, rest with
      | [lastVerifiedUnit, temperatureC, packagePowerW, frequencyHz, eccCorrected,
          eccUncorrected], [] =>
        return { elapsedNs, phase, workload, lastVerifiedUnit, temperatureC, packagePowerW,
                 frequencyHz, eccCorrected, eccUncorrected,
                 workersAlive := UInt32.ofNat alive, workersStale := UInt32.ofNat stale }
      | _, _ => none

/-- Whether fewer bytes than the length claims could be the start of a record. -/
def couldBeCutShort (seen : List UInt8) (length : Nat) : Bool :=
  if seen = [] then true
  else if seen.getD 0 0 ≠ kEntry then false
  else if kPhaseSizeAt < seen.length then
    let phase := (seen.getD kPhaseSizeAt 0).toNat
    if kMaxLabelBytes < phase then false
    else if kPhaseSizeAt + 1 + phase < seen.length then
      let workload := (seen.getD (kPhaseSizeAt + 1 + phase) 0).toNat
      if kMaxLabelBytes < workload then false
      else length = kEntryFixedBytes + phase + workload
    else
      kEntryFixedBytes + phase ≤ length ∧ length ≤ kEntryFixedBytes + phase + kMaxLabelBytes
  else kEntryFixedBytes ≤ length ∧ length ≤ kEntryFixedBytes + 2 * kMaxLabelBytes

def endingOfShortRecord (rest : List UInt8) (length : Nat) : Ending :=
  if couldBeCutShort (rest.drop kHeaderBytes) length then .kTornTail else .kCorrupt

/-- What a record whose check holds is. `after` is what follows it. -/
def lookPayload (payload after : List UInt8) : Look Entry Ending :=
  if payload.getD 0 0 = kTerminator then
    .stop (if payload.length = 1 ∧ after = [] then .kTerminated else .kCorrupt)
  else if payload.getD 0 0 = kEntry then
    match decodeEntry payload with
    | none => .stop .kCorrupt
    | some entry => .record entry after
  else .stop .kCorrupt

/-- One round of the scan, over the bytes no record before has used. -/
def look (rest : List UInt8) : Look Entry Ending :=
  if rest = [] then .stop .kUnterminated
  else if rest.length < kHeaderBytes then .stop .kTornTail
  else
    let length := leNat (rest.take 4)
    if length = 0 ∨ kMaxPayloadBytes < length then .stop .kCorrupt
    else if rest.length - kHeaderBytes < length then .stop (endingOfShortRecord rest length)
    else
      let payload := (rest.drop kHeaderBytes).take length
      if (check (rest.take 4) payload).toNat ≠ leNat ((rest.drop 4).take 4) then .stop .kCorrupt
      else lookPayload payload (rest.drop (kHeaderBytes + length))

/-- What the bytes of a whole journal say. Each record takes a byte at least, so there are rounds
enough. -/
def scan (bytes : List UInt8) : Replay :=
  if bytes = [] then ⟨[], .kEmpty⟩
  else
    let scanned := scanWith look .kCorrupt (bytes.length + 1) bytes
    ⟨scanned.records, scanned.ending⟩

end LoadForge.Journal
