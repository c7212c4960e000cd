import LoadForge.Controller.Plan
import LoadForge.Controller.Supervision
import LoadForge.Framework.Run
import LoadForge.Verification.Codec
import LoadForge.Worker.Control
import LoadForge.Worker.RecordReader

namespace LoadForge.Controller

open Framework Verification Worker
open Ipc (Drained FrameError)

def kMaxFindingsKept : Nat := 256

/-- What became of the controller's messages to one worker. -/
structure CommandReport where
  sent : UInt64 := 0
  done : UInt64 := 0
  refused : UInt64 := 0
  unacknowledged : UInt64 := 0
  dropped : UInt64 := 0
  deriving DecidableEq

structure Unanswered where
  sequence : UInt32
  command : Command
  sentNs : Int
  deriving DecidableEq

/-- How far the controller got in stopping a worker. -/
inductive StopStep
  | kNone | kRequested | kTerminated | kKilled
  deriving DecidableEq

/-- What the controller holds about one worker while it runs. -/
structure Tracked where
  slot : Nat
  plan : WorkerPlan
  wrongResults : UInt64 := 0
  notPerformed : UInt64 := 0
  findingsDropped : UInt64 := 0
  idleAllowanceNs : Int := 0
  notes : List String := []
  findings : List ErrorRecord := []
  told : List (List UInt8) := []
  commands : CommandReport := {}
  memory : Option MemoryLock := none
  tally : Tally := {}
  unanswered : List Unanswered := []
  nextSequence : UInt32 := 1
  evidence : Evidence := {}
  channelOpen : Bool := true
  step : StopStep := .kNone
  stepSinceNs : Int := 0
  reaped : Bool := false
  tallySeen : Bool := false
  paused : Bool := false

def Tracked.launch (slot : Nat) (plan : WorkerPlan) : Tracked :=
  { slot := slot, plan := plan, told := (plan.args.map fun args => bytesOf args.workload).toList }

def recordWord (type : UInt16) : String :=
  if type = 1 then "started" else if type = 2 then "finished" else if type = 3 then "error"
  else "unknown record"

/-- An error record is counted, and kept while there is room. -/
def takeErrorRecord (shortest : UInt64 → String) (w : Tracked) (r : Record) :
    Except String Tracked :=
  if w.plan.args.isNone then .error "an error record from a worker that runs no workload"
  else
    match decode shortest r.payload with
    | .error e =>
      .error ("an error record that does not decode (" ++ e.fault.describe ++ "): " ++ e.detail)
    | .ok found =>
      match (provenanceOf found).workload.filter fun reported => reported ∉ w.told with
      | some reported =>
        .error ("an error record about workload '" ++ textOf reported ++
          "' from a worker that was never told to run it")
      | none =>
        let w := if isWrongResult found then { w with wrongResults := w.wrongResults + 1 }
          else { w with notPerformed := w.notPerformed + 1 }
        .ok (if w.findings.length < kMaxFindingsKept then
            { w with findings := w.findings ++ [found] }
          else { w with findingsDropped := w.findingsDropped + 1 })

def takeMemory (w : Tracked) (r : Record) : Except String Tracked :=
  match decodeMemory r.payload with
  | .error e => .error e
  | .ok lock =>
    match w.memory.filter fun held => lock.outcome.code ≤ held.outcome.code with
    | some _ => .ok w
    | none =>
      let line := "working set: " ++ lock.outcome.describe ++ " (lock policy " ++
        lock.policy.describe ++ ")"
      .ok { w with
        notes := w.notes ++ [if lock.detail = [] then line else line ++ ": " ++ textOf lock.detail]
        memory := some lock }

/-- What a command that was done changes in how its worker is judged. -/
def Tracked.obeyed (w : Tracked) : Command → Tracked
  | .pause => { w with paused := true }
  | .resume => { w with paused := false }
  | .setDuty duty => { w with idleAllowanceNs := idleNs duty }
  | _ => w

def takeAck (w : Tracked) (r : Record) : Except String Tracked :=
  match decodeAck r.payload with
  | .error e => .error ("an acknowledgement that does not decode: " ++ e.detail)
  | .ok ack =>
    match w.unanswered with
    | [] => .error ("an acknowledgement of message " ++ toString ack.sequence ++
        " when none is unanswered")
    | next :: rest =>
      if ack.sequence ≠ next.sequence then
        .error ("an acknowledgement of message " ++ toString ack.sequence ++ " when " ++
          toString next.sequence ++ " is the next to be answered")
      else
        let w := { w with unanswered := rest }
        match ack.status with
        | .kRefused =>
          .ok { w with
            commands := { w.commands with refused := w.commands.refused + 1 }
            notes := w.notes ++ ["refused " ++ commandName next.command ++ ": " ++
              textOf ack.detail] }
        | .kDone =>
          .ok ({ w with commands := { w.commands with done := w.commands.done + 1 } }.obeyed
            next.command)

/-- A tally: cumulative, so one that is smaller than the last is refused. -/
def takeTally (w : Tracked) (r : Record) : Except String Tracked :=
  match decodeTally r.payload with
  | .error e => .error e
  | .ok now =>
    if w.tallySeen ∧ (now.unitsComputed < w.tally.unitsComputed ∨
        now.oracleBlocks < w.tally.oracleBlocks ∨
        now.integrityChecked < w.tally.integrityChecked) then
      .error "a tally that went backwards"
    else .ok { w with tally := now, tallySeen := true }

/-- One record off a worker's channel: the worker as it is then, or why it is refused. -/
def ingest (shortest : UInt64 → String) (w : Tracked) (r : Record) : Except String Tracked :=
  if r.type = kErrorRecordFrameType then takeErrorRecord shortest w r
  else if r.type = kTallyFrameType then takeTally w r
  else if r.type = kMemoryFrameType then takeMemory w r
  else if r.type = kControlAckFrameType then takeAck w r
  else
    let w := if r.type = 2 then { w with evidence := { w.evidence with finishedSeen := true } }
      else w
    .ok { w with notes := w.notes ++ [recordWord r.type ++ ": " ++ textOf r.payload] }

def closeChannel (w : Tracked) : Tracked := { w with channelOpen := false }

/-- A record that is refused is evidence against the channel, which is closed. -/
def refuse (w : Tracked) (refusal : String) : Tracked :=
  closeChannel { w with
    evidence := { w.evidence with channelCorrupt := true }
    notes := w.notes ++ ["record channel: " ++ refusal] }

/-- Records in order, up to the first that is refused. -/
def drainRecords (shortest : UInt64 → String) (w : Tracked) : List Record → Tracked
  | [] => w
  | r :: rs =>
    match ingest shortest w r with
    | .ok w => drainRecords shortest w rs
    | .error refusal => refuse w refusal

/-- A frame fault, recorded after the records that came whole before it. -/
def takeFault (w : Tracked) (frame : FrameError) : Tracked :=
  closeChannel { w with
    evidence := if frame.fault = .kTruncated then { w.evidence with channelTruncated := true }
      else { w.evidence with channelCorrupt := true }
    notes := w.notes ++ ["record channel: " ++ frame.describe] }

def drain (shortest : UInt64 → String) (w : Tracked) (d : Drained) : Tracked :=
  let w := drainRecords shortest w d.records
  if !w.channelOpen then w
  else
    match d.fault with
    | some frame => takeFault w frame
    | none => if d.endOfStream then closeChannel w else w

end LoadForge.Controller
