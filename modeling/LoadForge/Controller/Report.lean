import LoadForge.Controller.Account
import LoadForge.Framework.Fleet

namespace LoadForge.Controller

open Framework Verification Worker List

/-- One worker's story, as the controller will tell it. -/
structure WorkerReport where
  slot : Nat
  fate : WorkerFate
  records : List String
  tally : Tally
  tallySeen : Bool
  memory : Option MemoryLock
  work : Option WorkerWork
  findings : List ErrorRecord
  wrongResults : UInt64
  notPerformed : UInt64
  findingsDropped : UInt64
  commands : CommandReport

inductive StopCause
  | kReached | kUnwatched
  deriving DecidableEq

/-- Why the temperature ceiling ended a run; what a sensor read is the bits of a double. -/
structure TemperatureStop where
  cause : StopCause
  sensor : String := ""
  celsius : UInt64 := 0
  ceilingC : Int
  atNs : Int
  detail : String := ""
  blindNs : Int := 0
  deriving DecidableEq

structure RunReport where
  workers : List WorkerReport
  elapsedNs : Int
  stepsRun : Nat := 0
  temperatureStop : Option TemperatureStop := none
  stopSignal : Option Int := none
  stopForced : Bool := false

def cleanCount (report : RunReport) : Nat := report.workers.countP fun worker => isClean worker.fate

def allClean (report : RunReport) : Bool :=
  !report.workers.isEmpty && cleanCount report == report.workers.length

def CommandReport.describe (commands : CommandReport) : String :=
  "control: " ++ toString commands.sent ++ " message(s) sent, " ++ toString commands.done ++
    " done, " ++ toString commands.refused ++ " refused, " ++ toString commands.unacknowledged ++
    " unanswered, " ++ toString commands.dropped ++ " dropped (too many unanswered)"

/-- A worker's report once it is gone. A Stop it never read is not counted as unanswered. -/
def Tracked.report (w : Tracked) (scheduled : Bool) : WorkerReport :=
  let commands := { w.commands with
    unacknowledged := UInt64.ofNat (w.unanswered.countP fun each => each.command != .stop) }
  { slot := w.slot
    fate := classify w.evidence
    records := if scheduled then w.notes ++ [commands.describe] else w.notes
    tally := w.tally
    tallySeen := w.tallySeen
    memory := w.memory
    work := w.plan.work
    findings := w.findings
    wrongResults := w.wrongResults
    notPerformed := w.notPerformed
    findingsDropped := w.findingsDropped
    commands := commands }

/-- How a run ended, besides what became of its workers. -/
structure Ending where
  elapsedNs : Int
  scheduled : Bool := false
  stepsRun : Nat := 0
  temperatureStop : Option TemperatureStop := none
  stopSignal : Option Int := none
  stopForced : Bool := false

def finish (workers : List Tracked) (ending : Ending) : RunReport where
  workers := workers.map fun w => w.report ending.scheduled
  elapsedNs := ending.elapsedNs
  stepsRun := ending.stepsRun
  temperatureStop := ending.temperatureStop
  stopSignal := ending.stopSignal
  stopForced := ending.stopForced

def launchAll (plans : List WorkerPlan) : List Tracked := plans.mapIdx Tracked.launch

/-- The workers after a run in which their events came in any order. -/
def runAll (shortest : UInt64 → String) (plans : List WorkerPlan)
    (es : List (Nat × WorkerEvent)) : List Tracked :=
  run (stepAt (Tracked.after shortest)) (launchAll plans) es

def acceptedRecord (shortest : UInt64 → String) (w : Tracked) : WorkerEvent → Option ErrorRecord
  | .frame r =>
    if w.channelOpen ∧ r.type = kErrorRecordFrameType then
      match takeErrorRecord shortest w r with
      | .ok _ => (decode shortest r.payload).toOption
      | .error _ => none
    else none
  | _ => none

/-- Every error record the controller accepts from a worker, in order. -/
def acceptedRecords (shortest : UInt64 → String) : Tracked → List WorkerEvent → List ErrorRecord
  | _, [] => []
  | w, e :: es =>
    (acceptedRecord shortest w e).toList ++ acceptedRecords shortest (w.after shortest e) es

/-- Every error record the controller accepts from one worker of a run. -/
def acceptedFrom (shortest : UInt64 → String) (plans : List WorkerPlan)
    (es : List (Nat × WorkerEvent)) (index : Nat) : List ErrorRecord :=
  match plans[index]? with
  | some plan => acceptedRecords shortest (.launch index plan) (eventsOf index es)
  | none => []

variable (shortest : UInt64 → String) (w : Tracked)

theorem after_plan (e : WorkerEvent) : (w.after shortest e).plan = w.plan := by
  rcases after_cases shortest w e with hsame | ⟨r, rfl, -, ⟨-, ht⟩ | ⟨-, ht⟩⟩
  · exact hsame.plan
  · obtain ⟨found, -, -, hplan, -⟩ := takeErrorRecord_ok shortest w _ r ht
    exact hplan
  · obtain ⟨now, -, hnow, -⟩ := takeTally_ok w _ r ht
    rw [hnow]

theorem run_plan (es : List WorkerEvent) : (run (Tracked.after shortest) w es).plan = w.plan := by
  refine run_inv (fun s => s.plan = w.plan) (fun s e hs => ?_) w es rfl
  rw [after_plan, hs]

theorem acceptedRecord_some (e : WorkerEvent) (found : ErrorRecord)
    (ha : acceptedRecord shortest w e = some found) :
    w.plan.args.isSome = true ∧ (w.after shortest e).findings =
      if w.findings.length < kMaxFindingsKept then w.findings ++ [found] else w.findings := by
  cases e with
  | frame r =>
    simp only [acceptedRecord] at ha
    split_ifs at ha with hopen
    cases ht : takeErrorRecord shortest w r with
    | error refusal => simp [ht] at ha
    | ok w' =>
      obtain ⟨kept, hdecode, hargs, -, -, -, -, hfindings⟩ := takeErrorRecord_ok shortest w w' r ht
      have hkept : kept = found := by simpa [ht, hdecode, Except.toOption] using ha
      have hi : ingest shortest w r = .ok w' := by
        unfold ingest
        rw [if_pos hopen.2, ht]
      have hafter : w.after shortest (.frame r) = w' := by
        simp only [Tracked.after, Tracked.whenOpen, hopen.1, if_true, takeFrame, hi]
      rw [hafter, hfindings, hkept]
      exact ⟨hargs, rfl⟩
  | _ => simp [acceptedRecord] at ha

theorem acceptedRecord_none (e : WorkerEvent) (ha : acceptedRecord shortest w e = none) :
    (w.after shortest e).findings = w.findings := by
  rcases after_cases shortest w e with hsame | ⟨r, rfl, ho, ⟨hr, ht⟩ | ⟨-, ht⟩⟩
  · exact hsame.findings
  · obtain ⟨found, hdecode, -⟩ := takeErrorRecord_ok shortest w _ r ht
    simp [acceptedRecord, ho, hr, ht, hdecode, Except.toOption] at ha
  · obtain ⟨now, -, hnow, -⟩ := takeTally_ok w _ r ht
    rw [hnow]

private theorem take_append_take {α : Type} (xs ys : List α) (n : Nat) :
    (xs.take n ++ ys).take n = (xs ++ ys).take n := by
  rw [take_append, take_append, take_take, Nat.min_self, length_take]
  by_cases hle : xs.length ≤ n
  · rw [Nat.min_eq_right hle]
  · rw [Nat.min_eq_left (by omega), Nat.sub_self, Nat.sub_eq_zero_of_le (by omega)]

theorem after_findings (e : WorkerEvent) (hw : w.findings.length ≤ kMaxFindingsKept) :
    (w.after shortest e).findings =
      (w.findings ++ (acceptedRecord shortest w e).toList).take kMaxFindingsKept := by
  cases ha : acceptedRecord shortest w e with
  | none =>
    rw [acceptedRecord_none shortest w e ha, Option.toList_none, append_nil, take_of_length_le hw]
  | some found =>
    rw [(acceptedRecord_some shortest w e found ha).2, Option.toList_some]
    split_ifs with hroom
    · have hle : (w.findings ++ [found]).length ≤ kMaxFindingsKept := by
        rw [length_append]
        exact hroom
      rw [take_of_length_le hle]
    · rw [take_append_of_le_length (by omega), take_of_length_le hw]

theorem run_findings (es : List WorkerEvent) (hw : w.findings.length ≤ kMaxFindingsKept) :
    (run (Tracked.after shortest) w es).findings =
      (w.findings ++ acceptedRecords shortest w es).take kMaxFindingsKept := by
  induction es generalizing w with
  | nil => simp [acceptedRecords, take_of_length_le hw]
  | cons e es ih =>
    have hstep := after_findings shortest w e hw
    have hlen : (w.after shortest e).findings.length ≤ kMaxFindingsKept := by
      rw [hstep]
      exact length_take_le _ _
    rw [run_cons, ih _ hlen, hstep, take_append_take, acceptedRecords, append_assoc]

theorem acceptedRecords_args (es : List WorkerEvent) (found : ErrorRecord)
    (hf : found ∈ acceptedRecords shortest w es) :
    w.plan.args.isSome = true := by
  induction es generalizing w with
  | nil => simp [acceptedRecords] at hf
  | cons e es ih =>
    rw [acceptedRecords, mem_append, Option.mem_toList] at hf
    rcases hf with hnow | hlater
    · exact (acceptedRecord_some shortest w e found hnow).1
    · rw [← after_plan shortest w e]
      exact ih _ hlater

theorem mem_runAll (plans : List WorkerPlan) (es : List (Nat × WorkerEvent)) (w : Tracked) :
    w ∈ runAll shortest plans es ↔ ∃ index plan, plans[index]? = some plan ∧
      w = run (Tracked.after shortest) (.launch index plan) (eventsOf index es) := by
  rw [mem_iff_getElem?]
  simp only [runAll, launchAll, run_stepAt_get, getElem?_mapIdx, Option.map_map,
    Option.map_eq_some_iff, Function.comp_apply]
  constructor
  · rintro ⟨index, plan, hplan, rfl⟩
    exact ⟨index, plan, hplan, rfl⟩
  · rintro ⟨index, plan, hplan, rfl⟩
    exact ⟨index, plan, hplan, rfl⟩

theorem report_findings (plans : List WorkerPlan) (es : List (Nat × WorkerEvent)) (index : Nat)
    (plan : WorkerPlan)
    (hplan : plans[index]? = some plan) (scheduled : Bool) :
    ((run (Tracked.after shortest) (.launch index plan) (eventsOf index es)).report
      scheduled).findings = (acceptedFrom shortest plans es index).take kMaxFindingsKept := by
  have hlaunch : (Tracked.launch index plan).findings = [] := rfl
  have hrun := run_findings shortest (.launch index plan) (eventsOf index es) (by simp [hlaunch])
  rw [hlaunch, nil_append] at hrun
  simp only [Tracked.report, hrun, acceptedFrom, hplan]

theorem report_work (index : Nat) (plan : WorkerPlan) (es : List WorkerEvent) (scheduled : Bool) :
    ((run (Tracked.after shortest) (.launch index plan) es).report scheduled).work =
      plan.work := by
  simp only [Tracked.report, run_plan]
  rfl

end LoadForge.Controller
