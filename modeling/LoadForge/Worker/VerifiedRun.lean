import LoadForge.Framework.Run
import LoadForge.Verification.SliceRunner
import LoadForge.Worker.Control
import LoadForge.Worker.Entry

namespace LoadForge.Worker

open Framework Primitives Verification Verification.Integrity Workloads

inductive StopReason
  | kDurationElapsed | kStopRequested | kControllerHungUp | kControllerStale
  | kControllerUnreadable | kControlChannelBroken | kRunnerStopped
  deriving DecidableEq

structure WorkerError where
  stage : String
  detail : String
  deriving DecidableEq

def WorkerError.describe (e : WorkerError) : String := e.stage ++ ": " ++ e.detail

structure VerifiedOutcome where
  reason : StopReason := .kDurationElapsed
  progress : UInt64 := 0
  elapsedNs : Int := 0
  tally : Tally := {}
  note : String := ""

inductive Sent
  | record (r : ErrorRecord)
  | tally (t : Tally)
  | memory (lock : MemoryLock)
  | ack (a : ControlAck)

inductive Delivery
  | taken | controllerGone | failed (e : WorkerError)

/-- What `prepare` finds or makes around a runner. -/
structure Made where
  descriptor : Descriptor
  decomposition : UInt32
  layout : Layout
  startAddress : UInt64
  slack : UInt64
  memoryLock : MemoryLock

structure ControlMessage where
  sequence : UInt32
  command : Command
  deriving DecidableEq

structure ControlLook where
  messages : List ControlMessage := []
  lost : Option StopReason := none

/-- The pace, the workloads and paths, and what happens to each frame and runner. -/
structure Services where
  pacing : Pacing
  descriptor : String → Except WorkloadError Descriptor
  supported : IsaSet
  compiled : IsaSet
  delivery : Nat → Delivery
  made : Nat → Except WorkerError Made

/-- A wave of busy and idle time, from the instant it was set. -/
structure DutyClock where
  duty : SetDuty := {}
  epochNs : Int := 0

structure Position where
  busy : Bool
  remainingNs : Int

def DutyClock.position (clock : DutyClock) (nowNs : Int) : Position :=
  let busy := busyNs clock.duty
  let into := max (nowNs - clock.epochNs) 0 % clock.duty.periodNs
  ⟨into < busy, if into < busy then busy - into else clock.duty.periodNs - into⟩

/-- The loop across ticks; `did` and `reports` are what its runners did and returned. -/
structure Ticker where
  args : WorkloadArgs
  cpus : List UInt32
  runner : IntegrityRunner
  units : UInt64 := 1
  nextIndex : UInt64 := 0
  paused : Bool := false
  duty : DutyClock := {}
  carried : Tally := {}
  runnerCounted : Bool := false
  result : VerifiedOutcome := {}
  sent : List Sent := []
  frames : Nat := 0
  prepares : Nat := 0
  did : List Work := []
  reports : List SliceReport := []

/-- What a tick came to: go on, end the run, or leave at once. -/
inductive TickStep
  | kContinue | kEnd | kLeave
  deriving DecidableEq

structure Turn where
  ticker : Ticker
  step : Except WorkerError TickStep

def Turn.goOn (t : Ticker) : Turn := ⟨t, .ok .kContinue⟩

/-- The next part of a tick, unless the part before it ended the run. -/
def Turn.andThen (turn : Turn) (next : Ticker → Turn) : Turn :=
  match turn.step with
  | .ok .kContinue => next turn.ticker
  | _ => turn

def Ticker.fail (t : Ticker) (stage detail : String) : Turn := ⟨t, .error ⟨stage, detail⟩⟩

/-- Everything counted so far: the runners that were replaced, and this one. -/
def Ticker.whole (t : Ticker) : Tally := t.carried.add t.runner.total

def Ticker.ends (t : Ticker) (reason : StopReason) : Turn :=
  ⟨{ t with result := { t.result with reason := reason } }, .ok .kEnd⟩

def Ticker.leave (t : Ticker) (reason : StopReason) : Turn :=
  let tally := if t.runnerCounted then t.carried else t.whole
  ⟨{ t with result := { t.result with
      reason := reason, tally := tally, progress := tally.unitsComputed } }, .ok .kLeave⟩

def Ticker.note (t : Ticker) (frame : Sent) (taken : Bool) : Ticker :=
  { t with frames := t.frames + 1, sent := if taken then t.sent ++ [frame] else t.sent }

variable (w : Services) (t : Ticker)

/-- A frame sent, and what it comes to for the loop. -/
def Ticker.send (frame : Sent) : Turn :=
  match w.delivery t.frames with
  | .taken => .goOn (t.note frame true)
  | .controllerGone => (t.note frame false).leave .kControllerHungUp
  | .failed e => ⟨t.note frame false, .error e⟩

def Ticker.sendAll (w : Services) (t : Ticker) : List Sent → Turn
  | [] => .goOn t
  | frame :: rest => (t.send w frame).andThen fun t => t.sendAll w rest

/-- Every record of a report, then the running tally. -/
def Ticker.sendReport (report : SliceReport) (total : Tally) : Turn :=
  t.sendAll w (report.records.map .record ++ [.tally total])

def Ticker.reply (sequence : UInt32) (status : AckStatus) (detail : String) : Turn :=
  t.send w (.ack ⟨sequence, status, (bytesOf detail).take kMaxTextBytes⟩)

def Ticker.tellMemory : Turn := t.send w (.memory t.runner.memoryLock)

def kOracleSubject : String := "oracle over "
def kBracketSubject : String := "input-integrity bracket over "

/-- A record that states what a run did not check, in the words of its subject. -/
def statesZero (subject : String) : ErrorRecord → Bool
  | .notPerformed r => (bytesOf subject).isPrefixOf r.what
  | _ => false

/-- The statements about the whole run, kept where they are true of it. -/
def keepTrueStatements (report : SliceReport) (whole : Tally) (runOver : Bool) : SliceReport :=
  let oracleZero := runOver && whole.oracleBlocks == 0
  let bracketZero := runOver && whole.integrityChecked == 0
  { report with records := report.records.filter fun record =>
      !((statesZero kOracleSubject record && !oracleZero) ||
        (statesZero kBracketSubject record && !bracketZero)) }

def Ticker.closed (t : Ticker) (runner : IntegrityRunner) (nextIndex : UInt64) : Ticker :=
  { t with
    runner := runner, carried := t.carried.add runner.total, runnerCounted := true
    nextIndex := nextIndex }

/-- The runner's last word, and its tally into the worker's. -/
def Ticker.closeRunner (runOver : Bool) : Turn :=
  match finish t.runner with
  | (runner, .error e) => { t with runner := runner }.fail "runner" ("finish: " ++ e.detail)
  | (runner, .ok last) =>
    let t := t.closed runner last.nextIndex
    t.sendReport w (keepTrueStatements last t.carried runOver) t.carried

/-- The runner for the arguments, on what was made for it. -/
def prepare (answer : Except WorkerError Made) (args : WorkloadArgs) (cpus : List UInt32)
    (firstIndex : UInt64) : Except WorkerError IntegrityRunner :=
  answer.map fun made => makeSliceRunner {
    descriptor := made.descriptor
    base := {
      workload := some (bytesOf args.workload), workloadVersion := some made.descriptor.version
      seed := some args.seed, isa := some (args.isa.code)
      physicalPackage := args.physicalPackage, physicalCore := args.physicalCore
      decomposition := some made.decomposition, footprintBytes := some args.footprintBytes
      numaNode := args.numaNode
      logicalCpu := match cpus with
        | [cpu] => some cpu
        | _ => none }
    duty := args.duty, lineBytes := args.lineBytes, firstIndex := firstIndex
    layout := made.layout, startAddress := made.startAddress, slack := made.slack
    memoryLock := made.memoryLock }

/-- A runner newly prepared in the place of the one before it. -/
def Ticker.install (t : Ticker) (runner : IntegrityRunner) (args : WorkloadArgs)
    (cpus : List UInt32) : Ticker :=
  { t with
    runner := runner, runnerCounted := false, args := args, cpus := cpus, units := 1 }

def Ticker.prepared (t : Ticker) : Ticker := { t with prepares := t.prepares + 1 }

/-- The old runner made again after `next` was refused. -/
def Ticker.restore (w : Services) (t : Ticker) (sequence : UInt32) (next : WorkloadArgs)
    (refusal : String) : Turn :=
  match prepare (w.made t.prepares) t.args t.cpus t.nextIndex with
  | .error e =>
    t.prepared.fail "restore" ("could not go back to " ++ t.args.workload ++ " after refusing " ++
      next.workload ++ " (" ++ refusal ++ "): " ++ e.describe)
  | .ok runner =>
    ((t.prepared.install runner t.args t.cpus).tellMemory w).andThen fun t =>
      t.reply w sequence .kRefused refusal

/-- The runner replaced by one for `next` on `cpus`, from the next unit. -/
def Ticker.reconfigure (sequence : UInt32) (next : WorkloadArgs) (cpus : List UInt32) : Turn :=
  (t.closeRunner w false).andThen fun t =>
    match prepare (w.made t.prepares) next cpus t.nextIndex with
    | .ok runner =>
      ((t.prepared.install runner next cpus).tellMemory w).andThen fun t =>
        t.reply w sequence .kDone ""
    | .error e => t.prepared.restore w sequence next e.describe

/-- The arguments a Switch asks for, on a path the new workload has. -/
def switchedArgs (w : Services) (args : WorkloadArgs) (change : Switch) (described : Descriptor) :
    WorkloadArgs :=
  let reachable := w.compiled.intersect described.paths
  let keep := if reachable.contains args.isa then some args.isa else none
  { args with
    workload := change.workload, seed := change.seed, footprintBytes := change.footprintBytes
    decomposition := change.decomposition, duty := change.duty
    isa := (selectPath keep w.supported reachable).toOption.getD args.isa }

def movedArgs (args : WorkloadArgs) : WorkloadArgs :=
  { args with physicalPackage := none, physicalCore := none, numaNode := none }

def Ticker.setPaused (t : Ticker) (paused : Bool) : Ticker := { t with paused := paused }

def Ticker.setDuty (t : Ticker) (duty : SetDuty) (nowNs : Int) : Ticker :=
  { t with duty := ⟨duty, nowNs⟩ }

def Ticker.handle (message : ControlMessage) (nowNs : Int) : Turn :=
  match message.command with
  | .stop => (t.reply w message.sequence .kDone "").andThen fun t => t.ends .kStopRequested
  | .pause => (t.setPaused true).reply w message.sequence .kDone ""
  | .resume => (t.setPaused false).reply w message.sequence .kDone ""
  | .setDuty duty => (t.setDuty duty nowNs).reply w message.sequence .kDone ""
  | .rebind cpus => t.reconfigure w message.sequence (movedArgs t.args) cpus
  | .switch change =>
    match w.descriptor change.workload with
    | .error e =>
      t.reply w message.sequence .kRefused (e.fault.describe ++ ": " ++ e.detail)
    | .ok described =>
      t.reconfigure w message.sequence (switchedArgs w t.args change described) t.cpus

def Ticker.handleAll (w : Services) (t : Ticker) (nowNs : Int) : List ControlMessage → Turn
  | [] => .goOn t
  | message :: rest => (t.handle w message nowNs).andThen fun t => t.handleAll w nowNs rest

def kMaxSliceUnits : Nat := 2 ^ 20
def kMinTargetNs : Int := 1000000
def kTargetDivisor : Int := 2

/-- The size of the next slice: in proportion to how long the last one took, at most doubled. -/
def nextSliceUnits (lastUnits : UInt64) (tookNs targetNs : Int) : UInt64 :=
  let doubled := min (min lastUnits.toNat (kMaxSliceUnits / 2) * 2) kMaxSliceUnits
  if tookNs ≤ 0 then UInt64.ofNat doubled
  else
    let wanted := lastUnits.toNat * (max targetNs 1).toNat / tookNs.toNat
    UInt64.ofNat (min (max wanted 1) doubled)

/-- The clocks, the heartbeat, the watch, the control pipe and the units of a slice. -/
structure TickWorld where
  now : Except String (Int × Int)
  published : Except String Unit := .ok ()
  gone : Option StopReason := none
  looked : Except WorkerError ControlLook := .ok {}
  slice : Nat → UnitWorld := fun _ => {}
  after : Except String Int

def targetNs (w : Services) : Int := max (w.pacing.intervalNs.tdiv kTargetDivisor) kMinTargetNs

/-- The runner after a slice, and what was done to units in it. -/
def Ticker.ran (t : Ticker) (run : SliceRun) : Ticker :=
  { t with
    runner := run.runner, did := t.did ++ run.did
    reports := t.reports ++ run.report.toOption.toList }

def Ticker.slice (w : Services) (t : Ticker) (nowNs busyRemainingNs : Int) (e : TickWorld) : Turn :=
  let run := runSlice t.runner t.units e.slice
  let t := t.ran run
  match run.report with
  | .error stopped =>
    { t with result := { t.result with note := stopped.detail } }.ends .kRunnerStopped
  | .ok report =>
    let t := { t with nextIndex := report.nextIndex }
    (t.sendReport w report t.whole).andThen fun t =>
      match e.after with
      | .error detail => t.fail "clock" detail
      | .ok afterNs =>
        let aim := max (min (targetNs w) busyRemainingNs) kMinTargetNs
        .goOn { t with units := nextSliceUnits t.units (afterNs - nowNs) aim }

def Ticker.beat (t : Ticker) (elapsedNs : Int) : Ticker :=
  { t with result := { t.result with elapsedNs := elapsedNs, progress := t.whole.unitsComputed } }

/-- The control pipe, and a slice when it had no message and the worker is not idle. -/
def Ticker.listen (nowNs : Int) (e : TickWorld) : Turn :=
  let position := t.duty.position nowNs
  let idle := t.paused || !position.busy
  match e.looked with
  | .error failure => ⟨t, .error failure⟩
  | .ok look =>
    (t.handleAll w nowNs look.messages).andThen fun t =>
      match look.lost with
      | some reason => t.leave reason
      | none =>
        if look.messages ≠ [] ∨ idle then .goOn t else t.slice w nowNs position.remainingNs e

/-- One tick: the beat, then the judgements, then the control pipe, then a slice. -/
def Ticker.once (e : TickWorld) : Turn :=
  match e.now with
  | .error detail => t.fail "clock" detail
  | .ok (nowNs, elapsedNs) =>
    let t := t.beat elapsedNs
    match e.published with
    | .error detail => t.fail "heartbeat" detail
    | .ok () =>
      if w.pacing.durationNs ≤ elapsedNs then t.ends .kDurationElapsed
      else
        match e.gone with
        | some reason => t.leave reason
        | none => t.listen w nowNs e

def Ticker.conclude : Ticker × Except WorkerError VerifiedOutcome :=
  let closed := t.closeRunner w true
  match closed.step with
  | .error e => (closed.ticker, .error e)
  | .ok _ =>
    (closed.ticker, .ok { closed.ticker.result with
      tally := closed.ticker.carried, progress := closed.ticker.carried.unitsComputed })

/-- A worker that runs, or that is over with what came of it. -/
inductive Life
  | running (t : Ticker)
  | gone (t : Ticker) (outcome : Except WorkerError VerifiedOutcome)

def Life.ticker : Life → Ticker
  | .running t => t
  | .gone t _ => t

def settle (w : Services) (turn : Turn) : Life :=
  match turn.step with
  | .error e => .gone turn.ticker (.error e)
  | .ok .kLeave => .gone turn.ticker (.ok turn.ticker.result)
  | .ok .kEnd => .gone (turn.ticker.conclude w).1 (turn.ticker.conclude w).2
  | .ok .kContinue => .running turn.ticker

def Life.tick (w : Services) (life : Life) (e : TickWorld) : Life :=
  match life with
  | .gone t outcome => .gone t outcome
  | .running t => settle w (t.once w e)

/-- A worker from the preparation of its first runner to its first tick. -/
def startWorker (w : Services) (args : WorkloadArgs) (cpus : List UInt32) :
    Except WorkerError Life :=
  (prepare (w.made 0) args cpus 0).map fun runner =>
    let told := Ticker.tellMemory w { args, cpus, runner, prepares := 1 }
    match told.step with
    | .error e => .gone told.ticker (.error e)
    | .ok .kContinue => .running told.ticker
    | .ok _ => .gone told.ticker (.ok { reason := .kControllerHungUp })

end LoadForge.Worker
