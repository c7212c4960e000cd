import LoadForge.Verification.Record
import LoadForge.Workloads.Workload

namespace LoadForge.Worker

open Framework Verification Workloads

def kControlFrameType : UInt16 := 32
def kControlAckFrameType : UInt16 := 33
def kControlFormatVersion : UInt8 := 1

/-- Busy for `busyPermille` thousandths of every period. -/
structure SetDuty where
  busyPermille : UInt16 := 1000
  periodNs : Int := 1000000000
  deriving DecidableEq

structure Switch where
  workload : String
  seed : UInt64 := 0
  footprintBytes : UInt64 := 0
  decomposition : UInt32 := 0
  duty : DutyCycle := {}
  deriving DecidableEq

inductive Command
  | stop
  | pause
  | resume
  | setDuty (duty : SetDuty)
  | rebind (cpus : List UInt32)
  | switch (change : Switch)
  deriving DecidableEq

def commandName : Command → String
  | .stop => "stop"
  | .pause => "pause"
  | .resume => "resume"
  | .setDuty _ => "set duty"
  | .rebind _ => "rebind"
  | .switch _ => "switch"

def isValid : Command → Bool
  | .setDuty d => 1 ≤ d.busyPermille && d.busyPermille ≤ 1000 && decide (0 < d.periodNs)
  | .rebind cpus =>
    match cpus.getLast? with
    | none => false
    | some last => last < 1024 && decide (cpus.IsChain (· < ·))
  | .switch change => isValidName change.workload && 0 < change.footprintBytes
  | _ => true

def kPermille : Nat := 1000

/-- How much of a period is busy: thousandths of it, rounded down. -/
def busyNs (d : SetDuty) : Int :=
  let period := d.periodNs.toNat
  ((period / kPermille * d.busyPermille.toNat +
    period % kPermille * d.busyPermille.toNat / kPermille : Nat) : Int)

def idleNs (d : SetDuty) : Int := d.periodNs - busyNs d

inductive AckStatus
  | kDone | kRefused
  deriving DecidableEq

structure ControlAck where
  sequence : UInt32
  status : AckStatus
  detail : List UInt8
  deriving DecidableEq

inductive ControlDecodeFault
  | kEmpty | kVersion | kKind | kTruncated | kTrailing | kInvalid
  deriving DecidableEq

structure ControlDecodeError where
  fault : ControlDecodeFault
  detail : String
  deriving DecidableEq

/-- The next field of a message, little-endian, when its bytes are all there. -/
def getLe (width : Nat) (bytes : List UInt8) : Option (Nat × List UInt8) :=
  if width ≤ bytes.length then some (leNat (bytes.take width), bytes.drop width) else none

def getText (bytes : List UInt8) : Option (List UInt8 × List UInt8) :=
  (getLe 4 bytes).bind fun (size, rest) =>
    if size ≤ rest.length then some (rest.take size, rest.drop size) else none

def kAckKind : UInt8 := 0x80

def ackStatusOf : Nat → Option AckStatus
  | 0 => some .kDone
  | 1 => some .kRefused
  | _ => none

/-- The three fields of an acknowledgement and what follows them. -/
def readAck (bytes : List UInt8) : Option ((Nat × Nat × List UInt8) × List UInt8) := do
  let (sequence, rest) ← getLe 4 bytes
  let (status, rest) ← getLe 1 rest
  let (detail, rest) ← getText rest
  return ((sequence, status, detail), rest)

/-- The checks both decoders share, around what reads the fields and what judges them. -/
def decodeWith {α β : Type} (unknown : UInt8 → Option ControlDecodeError)
    (read : UInt8 → List UInt8 → Option (α × List UInt8)) (judge : α → Except ControlDecodeError β) :
    List UInt8 → Except ControlDecodeError β
  | [] => .error ⟨.kEmpty, "no bytes"⟩
  | version :: rest =>
    if version ≠ kControlFormatVersion then
      .error ⟨.kVersion, "version " ++ toString version ++ ", this build reads " ++
        toString kControlFormatVersion⟩
    else
      match rest with
      | [] => .error ⟨.kTruncated, "ends before the kind"⟩
      | kind :: fields =>
        match unknown kind with
        | some e => .error e
        | none =>
          match read kind fields with
          | none => .error ⟨.kTruncated, "ends inside the message"⟩
          | some (a, left) =>
            if left ≠ [] then .error ⟨.kTrailing, "bytes after the message"⟩ else judge a

def unknownAckKind (kind : UInt8) : Option ControlDecodeError :=
  if kind ≠ kAckKind then some ⟨.kKind, "not an acknowledgement"⟩ else none

/-- The fields of an acknowledgement as they are on the wire. -/
def judgeAck (fields : Nat × Nat × List UInt8) : Except ControlDecodeError ControlAck :=
  match ackStatusOf fields.2.1 with
  | none => .error ⟨.kInvalid, "an acknowledgement that breaks its rules"⟩
  | some status =>
    if kMaxTextBytes < fields.2.2.length then
      .error ⟨.kInvalid, "an acknowledgement that breaks its rules"⟩
    else .ok ⟨UInt32.ofNat fields.1, status, fields.2.2⟩

def decodeAck : List UInt8 → Except ControlDecodeError ControlAck :=
  decodeWith unknownAckKind (fun _ => readAck) judgeAck

end LoadForge.Worker
