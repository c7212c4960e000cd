import LoadForge.Verification.ControlState
import LoadForge.Verification.Record
import LoadForge.Verification.Runner
import LoadForge.Workloads.Workload

namespace LoadForge.Verification.Integrity

open Framework Workloads

inductive Verdict
  | agreement (blocksCompared : UInt64)
  | exactMismatch (check : List UInt8) (difference : Option Difference) (blocksCompared : UInt64)
  | boundedMismatch (check : List UInt8) (residual tolerance : UInt64)
      (conditionNumber element : Option UInt64) (blocksCompared : UInt64)
  | notChecked (what why : List UInt8) (blocksCompared : UInt64)
  deriving DecidableEq

def Verdict.blocks : Verdict → UInt64
  | .agreement blocks => blocks
  | .exactMismatch _ _ blocks => blocks
  | .boundedMismatch _ _ _ _ _ blocks => blocks
  | .notChecked _ _ blocks => blocks

def Verdict.alternative : Verdict → Nat
  | .agreement _ => 0
  | .exactMismatch .. => 1
  | .boundedMismatch .. => 2
  | .notChecked .. => 3

def namesCheck (check : List UInt8) : Bool := check ≠ [] && check.length ≤ kMaxTextBytes

def keepsContract (contract : Contract) : Verdict → Bool
  | .agreement blocks => 1 ≤ blocks
  | .exactMismatch check difference blocks =>
    contract == .kExact && 1 ≤ blocks && namesCheck check &&
      (difference.bind brokenDifferenceRule).isNone
  | .boundedMismatch check residual tolerance _ _ blocks =>
    contract == .kBounded && 1 ≤ blocks && namesCheck check && F64.isFinite tolerance &&
      decide (0 < F64.key tolerance) && exceedsTolerance residual tolerance
  | .notChecked what why _ => namesCheck what && namesCheck why

inductive RunnerFault
  | kConfiguration | kResources | kFinished
  deriving DecidableEq

structure RunnerError where
  fault : RunnerFault
  detail : String
  deriving DecidableEq

structure SliceReport where
  tally : Tally := {}
  records : List ErrorRecord := []
  nextIndex : UInt64 := 0
  deriving DecidableEq

/-- Where the buffers of a unit lie in the working set. -/
structure Layout where
  units : UInt64
  inputStride : UInt64
  outputStride : UInt64
  outputs : UInt64
  deriving DecidableEq

inductive Work
  | generated (index : UInt64)
  | computed (index : UInt64)
  | checked (index : UInt64)
  deriving DecidableEq

/-- The copies memory has spoilt, what the two comparisons find, and what the oracle says. -/
structure UnitWorld where
  strikes : List (Nat × Stored) := []
  opened : Option Difference := none
  verdict : Except String Verdict := .ok (.agreement 1)
  closed : Option Difference := none

structure IntegrityRunner where
  name : String
  contract : Contract
  base : Provenance
  duty : DutyCycle
  layout : Layout
  startAddress : UInt64
  slack : UInt64
  control : ControlState
  memoryLock : MemoryLock
  total : Tally := {}
  nextIndex : UInt64
  finished : Bool := false
  halted : Option String := none

def bounded (text : String) : List UInt8 := (bytesOf text).take kMaxTextBytes

def notPerformed (p : Provenance) (what why : List UInt8) (blocks : UInt64) : ErrorRecord :=
  .notPerformed ⟨p, what, why, blocks⟩

variable (r : IntegrityRunner)

def runProvenance : Provenance := { r.base with duty := some r.duty }

/-- The control state decided nothing: say so, and run no further unit. -/
def halt (report : SliceReport) (failure : VoteFailure) : IntegrityRunner × SliceReport :=
  ({ r with halted := some ("the run stopped before unit " ++ toString r.nextIndex ++ ": " ++
      failure.describe) },
   { report with records := report.records ++
      [notPerformed (runProvenance r) (bounded ("control state of the " ++ r.name ++ " run"))
        (bounded (failure.describe ++ "; the run stops rather than pick a value")) 0] })

def slotOf (words : ControlWords) : UInt64 := words.index % r.layout.units

def inputOffset (words : ControlWords) : UInt64 :=
  r.slack + slotOf r words * r.layout.inputStride

def outputOffset (words : ControlWords) : UInt64 :=
  r.slack + r.layout.outputs + slotOf r words * r.layout.outputStride

def dutyOfWords (words : ControlWords) : DutyCycle :=
  ⟨words.oraclePeriod.toUInt32, words.integrityPeriod.toUInt32⟩

def seedOfWords (words : ControlWords) : Option UInt64 :=
  if words.seedPresent ≠ 0 then some words.seed else none

/-- One unit in every period, none for a period of 0. -/
def inPeriod (period : UInt32) (index : UInt64) : Bool :=
  period ≠ 0 && index % period.toUInt64 == 0

def kIntact : UInt8 := 0
def kCorruptBeforeConsumption : UInt8 := 1
def kCorruptDuringConsumption : UInt8 := 2
def kNotChecked : UInt8 := 3
def kOutput : UInt8 := 0
def kInput : UInt8 := 1

/-- The provenance of a finding about a unit, in the buffer at `offset`. -/
def provenanceAt (words : ControlWords) (offset : UInt64) (integrity : UInt8) : Provenance :=
  { r.base with
    iteration := some words.index, bufferAddress := some (r.startAddress + offset)
    bufferOffset := some offset, seed := seedOfWords words, inputIntegrity := some integrity
    duty := some (dutyOfWords words) }

def inputRecord (words : ControlWords) (difference : Difference)
    (integrity : UInt8) : ErrorRecord :=
  .exact ⟨provenanceAt r words (inputOffset r words) integrity, kInput,
    bytesOf "input against its regeneration", some difference, words.lineBytes.toUInt32⟩

def noted (t : Tally) : Counter → UInt64 → Tally
  | .unitsComputed, n => { t with unitsComputed := t.unitsComputed + n }
  | .oracleChecked, n => { t with oracleChecked := t.oracleChecked + n }
  | .oracleBlocks, n => { t with oracleBlocks := t.oracleBlocks + n }
  | .oracleFailed, n => { t with oracleFailed := t.oracleFailed + n }
  | .oracleNotPerformed, n => { t with oracleNotPerformed := t.oracleNotPerformed + n }
  | .integrityChecked, n => { t with integrityChecked := t.integrityChecked + n }
  | .integrityFailed, n => { t with integrityFailed := t.integrityFailed + n }

/-- The oracle's verdict on a unit, as a record when it is one. -/
def check (r : IntegrityRunner) (words : ControlWords) (tally : Tally)
    (verdict : Except String Verdict) : Tally × Option ErrorRecord :=
  let tally := noted tally .oracleChecked 1
  let p := provenanceAt r words (outputOffset r words) kNotChecked
  let what := bounded ("oracle check of " ++ r.name ++ " unit " ++ toString words.index)
  match verdict with
  | .error thrown => (noted tally .oracleNotPerformed 1, notPerformed p what (bounded thrown) 0)
  | .ok verdict =>
    if !keepsContract r.contract verdict then
      (noted tally .oracleNotPerformed 1,
       notPerformed p what (bytesOf ("the oracle's verdict (alternative " ++
        toString verdict.alternative ++ ") breaks the oracle contract")) 0)
    else
      let tally := noted tally .oracleBlocks verdict.blocks
      match verdict with
      | .agreement _ => (tally, none)
      | .exactMismatch check difference _ =>
        (noted tally .oracleFailed 1,
         some (.exact ⟨p, kOutput, check, difference, words.lineBytes.toUInt32⟩))
      | .boundedMismatch check residual tolerance conditionNumber element _ =>
        (noted tally .oracleFailed 1,
         some (.numerical ⟨p, check, residual, tolerance, conditionNumber, element⟩))
      | .notChecked what why blocks =>
        (noted tally .oracleNotPerformed 1, notPerformed p what why blocks)

def withIntegrity (integrity : UInt8) : ErrorRecord → ErrorRecord
  | .exact r => .exact { r with provenance := { r.provenance with inputIntegrity := integrity } }
  | .numerical r =>
    .numerical { r with provenance := { r.provenance with inputIntegrity := integrity } }
  | .notPerformed r =>
    .notPerformed { r with provenance := { r.provenance with inputIntegrity := integrity } }

/-- The unit is done: the next one is written to all the copies. -/
def advance (words : ControlWords) : IntegrityRunner :=
  { r with
    control := r.control.write { words with index := words.index + 1 }
    nextIndex := words.index + 1 }

/-- The runner, the report, what was done to units, and whether the slice goes on. -/
structure UnitRun where
  runner : IntegrityRunner
  report : SliceReport
  did : List Work
  goesOn : Bool

/-- A unit whose input was wrong before it was used: it is neither computed nor checked. -/
def runSpoilt (r : IntegrityRunner) (report : SliceReport) (words : ControlWords)
    (difference : Difference) : UnitRun where
  runner := advance r words
  report := { report with
    tally := noted (noted report.tally .integrityChecked 1) .integrityFailed 1
    records := report.records ++ [inputRecord r words difference kCorruptBeforeConsumption] }
  did := [.generated words.index, .generated words.index]
  goesOn := true

/-- What the closing comparison says of the input of a unit. -/
def integrityOf (bracketed : Bool) (closed : Option Difference) : UInt8 :=
  if !bracketed then kNotChecked
  else if closed.isSome then kCorruptDuringConsumption else kIntact

/-- The unit of the decided words, in its steps: write, open, compute, check, close. -/
def runVoted (report : SliceReport) (words : ControlWords) (world : UnitWorld) : UnitRun :=
  let bracketed := inPeriod (dutyOfWords words).integrityPeriod words.index
  let sampled := inPeriod (dutyOfWords words).oraclePeriod words.index
  match if bracketed then world.opened else none with
  | some difference => runSpoilt r report words difference
  | none =>
    let tally := if bracketed then noted report.tally .integrityChecked 1 else report.tally
    let tally := noted tally .unitsComputed 1
    let (tally, checked) := if sampled then check r words tally world.verdict else (tally, none)
    let closed := if bracketed then world.closed else none
    let tally := if closed.isSome then noted tally .integrityFailed 1 else tally
    let integrity := integrityOf bracketed closed
    { runner := advance r words
      report := { report with
        tally := tally
        records := report.records ++ (checked.map (withIntegrity integrity)).toList ++
          (closed.map fun difference => inputRecord r words difference integrity).toList }
      did := [.generated words.index] ++ (if bracketed then [.generated words.index] else []) ++
        [.computed words.index] ++ (if sampled then [.checked words.index] else []) ++
        (if bracketed then [.generated words.index] else [])
      goesOn := true }

def struck (control : ControlState) (strikes : List (Nat × Stored)) : ControlState :=
  strikes.foldl (fun control each => control.strike each.1 each.2) control

/-- One unit. The slice does not go on when the control state could not be decided. -/
def runUnit (report : SliceReport) (world : UnitWorld) : UnitRun :=
  let r := { r with control := struck r.control world.strikes }
  match r.control.read with
  | .error failure =>
    let (r, report) := halt r report failure
    { runner := r, report := report, did := [], goesOn := false }
  | .ok (words, control) => runVoted { r with control := control } report words world

/-- The units of a slice, up to one that could not be run. -/
def runUnits (world : Nat → UnitWorld) : Nat → Nat → UnitRun → UnitRun
  | 0, _, run => run
  | left + 1, done, run =>
    let next := runUnit run.runner run.report (world done)
    let run := { next with did := run.did ++ next.did }
    if next.goesOn then runUnits world left (done + 1) run else run

structure SliceRun where
  runner : IntegrityRunner
  did : List Work
  report : Except RunnerError SliceReport

def runSlice (units : UInt64) (world : Nat → UnitWorld) : SliceRun :=
  if r.finished then ⟨r, [], .error ⟨.kFinished, "run_slice() after finish()"⟩⟩
  else
    match r.halted with
    | some detail => ⟨r, [], .error ⟨.kFinished, detail⟩⟩
    | none =>
      let run := runUnits world units.toNat 0 ⟨r, {}, [], true⟩
      { runner := { run.runner with total := run.runner.total.add run.report.tally }
        did := run.did
        report := .ok { run.report with nextIndex := run.runner.nextIndex } }

def zeroStatements : List ErrorRecord :=
  (if r.total.oracleBlocks = 0 then
    [notPerformed (runProvenance r) (bounded ("oracle over " ++ r.name ++ " units"))
      (bounded ("no block was compared: an oracle period of " ++ toString r.duty.oraclePeriod ++
        " over " ++ toString r.total.unitsComputed ++ " units computed gave " ++
        toString r.total.oracleChecked ++ " to the oracle")) 0]
   else []) ++
  (if r.total.integrityChecked = 0 then
    [notPerformed (runProvenance r) (bounded ("input-integrity bracket over " ++ r.name ++ " units"))
      (bounded ("no unit was bracketed: an integrity period of " ++
        toString r.duty.integrityPeriod ++ " over " ++ toString r.total.unitsComputed ++
        " units computed")) 0]
   else [])

def finish (r : IntegrityRunner) : IntegrityRunner × Except RunnerError SliceReport :=
  if r.finished then (r, .error ⟨.kFinished, "finish() after finish()"⟩)
  else
    ({ r with finished := true },
     .ok { records := zeroStatements r, nextIndex := r.nextIndex })

/-- What a runner is made of once its workload, its oracle and its memory are there. -/
structure RunnerSetup where
  descriptor : Descriptor
  base : Provenance
  duty : DutyCycle
  lineBytes : UInt32
  firstIndex : UInt64
  layout : Layout
  startAddress : UInt64
  slack : UInt64
  memoryLock : MemoryLock

def makeSliceRunner (setup : RunnerSetup) : IntegrityRunner where
  name := setup.descriptor.name
  contract := setup.descriptor.contract
  base := { setup.base with workload := setup.base.workload.map (·.take kMaxTextBytes) }
  duty := setup.duty
  layout := setup.layout
  startAddress := setup.startAddress
  slack := setup.slack
  control := .create {
    seed := setup.base.seed.getD 0, seedPresent := if setup.base.seed.isSome then 1 else 0
    index := setup.firstIndex, oraclePeriod := setup.duty.oraclePeriod.toUInt64
    integrityPeriod := setup.duty.integrityPeriod.toUInt64
    lineBytes := setup.lineBytes.toUInt64 }
  memoryLock := setup.memoryLock
  nextIndex := setup.firstIndex

theorem runSlice_halted (hr : r.halted.isSome) (units : UInt64) (world : Nat → UnitWorld) :
    (runSlice r units world).did = [] ∧ (runSlice r units world).runner = r ∧
      ∃ e, (runSlice r units world).report = .error e := by
  obtain ⟨detail, hdetail⟩ := Option.isSome_iff_exists.mp hr
  unfold runSlice
  simp only [hdetail]
  split_ifs
  · exact ⟨rfl, rfl, _, rfl⟩
  · exact ⟨rfl, rfl, _, rfl⟩

end LoadForge.Verification.Integrity
