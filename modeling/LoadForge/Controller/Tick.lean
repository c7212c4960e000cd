import LoadForge.Controller.Report
import LoadForge.Controller.Sampling
import LoadForge.Workloads.Schedule

namespace LoadForge.Controller

open Framework Mixed Telemetry Worker

def kMaxUnanswered : Nat := 64

/-- What a run is told to do. A ceiling is one its watch was armed with. -/
structure RunOptions extends SamplingOptions where
  shortest : UInt64 → String := fun _ => ""
  schedule : Option Schedule := none
  durationNs : Int
  ceilingC : Option Int := none

def RunOptions.steps (o : RunOptions) : List Step := (o.schedule.map (·.steps)).getD []

structure RunState where
  workers : List Tracked
  sampling : Sampling
  clockRunningNs : Int
  stopRequested : Bool := false
  nextStep : Nat := 0
  stepsRun : Nat := 0
  temperatureStop : Option TemperatureStop := none
  temperatureCheckedNs : Int
  stopSignal : Option Int := none
  stopForced : Bool := false

inductive SendAnswer
  | sent | exited | gone
  deriving DecidableEq

/-- What one tick meets: the clocks, what a round returns and the temperature watch says of it,
what becomes of the messages, and what watching, draining and reaping come to. -/
structure Tick where
  sinceNs : Nat
  elapsedNs : Int
  sample : Nat → List Reading := fun _ => []
  observed : Option TemperatureStop := none
  pipe : Nat → UInt32 → PipeWrite := fun _ _ => .written
  supervised : List (Nat × WorkerEvent) := []
  signals : List Int := []
  send : Nat → SendAnswer := fun _ => .sent
  reaped : List (Nat × WorkerEvent) := []

section Steps

variable (o : RunOptions) (s : RunState)

def RunState.happen (es : List (Nat × WorkerEvent)) : RunState :=
  { s with workers := run (stepAt (Tracked.after o.shortest)) s.workers es }

/-- A Stop to every worker that has not been asked yet. -/
def requestStop (e : Tick) : RunState :=
  let asked := s.workers.zipIdx.flatMap fun (w, slot) =>
    if w.reaped ∨ w.step ≠ .kNone then []
    else
      [(slot, WorkerEvent.command .stop (e.pipe slot w.nextSequence) s.clockRunningNs),
       (slot, .stopRequested s.clockRunningNs)]
  { s with stopRequested := true }.happen o asked

def round (force : Bool) (e : Tick) : RunState :=
  { s with sampling := takeRound o.toSamplingOptions s.sampling s.clockRunningNs force e.sample }

def mark (label : String) : RunState :=
  { s with sampling := markPhase o.toSamplingOptions s.sampling label s.clockRunningNs }

def deadlineReached (e : Tick) : Bool :=
  !s.stopRequested && decide (o.durationNs ≤ e.elapsedNs)

/-- The deadline: the round that closes the phase, the mark that opens the next, the stop. -/
def stopAtDeadline (e : Tick) : RunState :=
  if deadlineReached o s e then requestStop o (mark o (round o s true e) "stop") e else s

def RunState.noteHeat (s : RunState) (stop : TemperatureStop) : RunState :=
  { s with temperatureStop := some stop }

def RunState.noteChecked (s : RunState) : RunState :=
  { s with temperatureCheckedNs := s.sampling.lastRoundNs }

def RunState.noteSignal (s : RunState) (signal : Int) : RunState :=
  { s with stopSignal := some signal }

def stopForTemperature (stop : TemperatureStop) (e : Tick) : RunState :=
  if s.stopRequested then s.noteHeat stop
  else requestStop o (mark o (s.noteHeat stop) "stop") e

/-- A ceiling that no round can be read against any more. -/
def unwatched (s : RunState) (ceiling : Int) (e : Tick) : TemperatureStop where
  cause := .kUnwatched
  ceilingC := ceiling
  atNs := e.elapsedNs
  detail := s.sampling.fault.getD "sampling stopped"
  blindNs := s.clockRunningNs - s.sampling.lastRoundNs

/-- A ceiling nothing reads any more is a stop; a round is judged once. -/
def enforceTemperature (e : Tick) : RunState :=
  match o.ceilingC, s.temperatureStop with
  | some ceiling, none =>
    if !s.sampling.live then stopForTemperature o s (unwatched s ceiling e) e
    else if s.sampling.lastRoundNs = s.temperatureCheckedNs then s
    else
      match e.observed with
      | some stop => stopForTemperature o s.noteChecked stop e
      | none => s.noteChecked
  | _, _ => s

/-- A message of the schedule, dropped when too many are unanswered. -/
def sendCommand (o : RunOptions) (e : Tick) (s : RunState) (slot : Nat) (what : Command) :
    RunState :=
  match s.workers[slot]? with
  | none => s
  | some w =>
    s.happen o [(slot, if kMaxUnanswered ≤ w.unanswered.length then .dropped
      else .command what (e.pipe slot w.nextSequence) s.clockRunningNs)]

def RunState.countStep (s : RunState) : RunState :=
  { s with nextStep := s.nextStep + 1, stepsRun := s.stepsRun + 1 }

def runStep (o : RunOptions) (e : Tick) (s : RunState) (step : Step) : RunState :=
  let s := mark o s.countStep step.phase
  step.workers.foldl
    (fun s each => each.commands.foldl (fun s what => sendCommand o e s each.slot what) s) s

def runSteps (o : RunOptions) (e : Tick) : RunState → List Step → RunState
  | s, [] => s
  | s, step :: rest =>
    if step.atNs ≤ e.elapsedNs then runSteps o e (runStep o e s step) rest else s

def runSchedule (e : Tick) : RunState :=
  match o.schedule with
  | none => s
  | some schedule =>
    if s.stopRequested then s else runSteps o e s (schedule.steps.drop s.nextStep)

def stopForSignal (signal : Int) (e : Tick) : RunState :=
  if s.stopRequested then s.noteSignal signal
  else requestStop o (mark o (round o (s.noteSignal signal) true e) "stop") e

def killForSignal (e : Tick) : RunState :=
  let sent := s.workers.zipIdx.flatMap fun (w, slot) =>
    if w.reaped ∨ w.step = .kKilled then []
    else
      match e.send slot with
      | .sent => [(slot, WorkerEvent.signalled sigKill false s.clockRunningNs)]
      | .exited => [(slot, .alreadyExited sigKill)]
      | .gone => []
  { s with stopForced := true }.happen o sent

/-- The first signal stops the run, any later one kills its workers. -/
def takeStopSignals (o : RunOptions) (e : Tick) : RunState → List Int → RunState
  | s, [] => s
  | s, signal :: rest =>
    takeStopSignals o e
      (if s.stopSignal.isSome then killForSignal o s e else stopForSignal o s signal e) rest

def RunState.readClock (s : RunState) (e : Tick) : RunState :=
  { s with clockRunningNs := s.clockRunningNs + e.sinceNs }

def tick (e : Tick) : RunState :=
  let s := s.readClock e
  let s := stopAtDeadline o s e
  let s := round o s false e
  let s := enforceTemperature o s e
  let s := runSchedule o s e
  let s := s.happen o e.supervised
  let s := takeStopSignals o e s e.signals
  s.happen o e.reaped

/-- A run as its first tick finds it: the sources probed, the baseline taken, the workers
launched. -/
def begin (o : RunOptions) (plans : List WorkerPlan) (t : BoundedTimeline) (startedNs : Int)
    (sample : Nat → List Reading) : RunState where
  workers := launchAll plans
  sampling := beginTelemetry o.toSamplingOptions t startedNs sample
  clockRunningNs := startedNs
  temperatureCheckedNs := startedNs

/-- The last round, once every worker is gone and drained. -/
def closeRun (e : Tick) : RunState :=
  round o ((s.readClock e).happen o e.reaped) true e

end Steps

section Workers

variable (o : RunOptions) (e : Tick) (s : RunState)

theorem happen_happen (es fs : List (Nat × WorkerEvent)) :
    (s.happen o es).happen o fs = s.happen o (es ++ fs) := by
  simp [RunState.happen, run_append]

theorem sendCommand_happens (slot : Nat) (what : Command) :
    ∃ es, sendCommand o e s slot what = s.happen o es := by
  unfold sendCommand
  cases s.workers[slot]? with
  | none => exact ⟨[], rfl⟩
  | some w => exact ⟨_, rfl⟩

theorem foldl_happens {α : Type} (f : RunState → α → RunState)
    (hf : ∀ s a, ∃ es, f s a = s.happen o es) (as : List α) (s : RunState) :
    ∃ es, as.foldl f s = s.happen o es := by
  induction as generalizing s with
  | nil => exact ⟨[], rfl⟩
  | cons a as ih =>
    obtain ⟨es, hes⟩ := hf s a
    obtain ⟨fs, hfs⟩ := ih (f s a)
    exact ⟨es ++ fs, by rw [List.foldl_cons, hfs, hes, happen_happen]⟩

/-- Sending a step's commands is events of the workers it names, and nothing else. -/
theorem runStep_happens (step : Step) :
    ∃ es, runStep o e s step = (mark o s.countStep step.phase).happen o es := by
  refine foldl_happens o
    (fun s each => each.commands.foldl (fun s what => sendCommand o e s each.slot what) s) ?_
    step.workers _
  intro s each
  exact foldl_happens o _ (fun s what => sendCommand_happens o e s each.slot what) each.commands s

/-- What a later state keeps of an earlier one: its workers only met events, a stop and what first
called for it stand, and no step is run after a stop. -/
structure Onward (s s' : RunState) : Prop where
  workers : ∃ es, s'.workers = run (stepAt (Tracked.after o.shortest)) s.workers es
  stop : s.stopRequested = true → s'.stopRequested = true ∧ s'.nextStep = s.nextStep
  heat : s'.temperatureStop = s.temperatureStop ∨
    s.temperatureStop = none ∧ s'.stopRequested = true
  signal : s'.stopSignal = s.stopSignal ∨ s.stopSignal = none ∧ s'.stopRequested = true
  forced : s'.stopForced = s.stopForced ∨ s'.stopForced = true ∧ s'.stopSignal.isSome = true

theorem happen_onward (es : List (Nat × WorkerEvent)) : Onward o s (s.happen o es) :=
  ⟨⟨es, rfl⟩, fun h => ⟨h, rfl⟩, .inl rfl, .inl rfl, .inl rfl⟩

theorem Onward.refl : Onward o s s := happen_onward o s []

variable {o} in
theorem Onward.trans {s s' s'' : RunState} (h : Onward o s s') (h' : Onward o s' s'') :
    Onward o s s'' where
  workers := by
    obtain ⟨es, hes⟩ := h.workers
    obtain ⟨fs, hfs⟩ := h'.workers
    exact ⟨es ++ fs, by rw [hfs, hes, run_append]⟩
  stop hs := by
    obtain ⟨hs', hstep⟩ := h.stop hs
    obtain ⟨hs'', hstep'⟩ := h'.stop hs'
    exact ⟨hs'', hstep'.trans hstep⟩
  heat := by grind [h.heat, h'.heat, h'.stop]
  signal := by grind [h.signal, h'.signal, h'.stop]
  forced := by grind [h.forced, h'.forced, h'.signal]

theorem runSteps_onward (steps : List Step) (s : RunState) (hs : s.stopRequested = false) :
    Onward o s (runSteps o e s steps) := by
  induction steps generalizing s with
  | nil => exact .refl o s
  | cons step rest ih =>
    unfold runSteps
    split_ifs
    · obtain ⟨es, hes⟩ := runStep_happens o e s step
      rw [hes]
      refine Onward.trans ?_ (ih _ hs)
      exact ⟨⟨es, rfl⟩, by simp [hs], .inl rfl, .inl rfl, .inl rfl⟩
    · exact .refl o s

theorem stopForTemperature_onward (stop : TemperatureStop) (ht : s.temperatureStop = none) :
    Onward o s (stopForTemperature o s stop e) := by
  unfold stopForTemperature
  split_ifs with hs
  · exact ⟨⟨[], rfl⟩, fun h => ⟨h, rfl⟩, .inr ⟨ht, hs⟩, .inl rfl, .inl rfl⟩
  · exact ⟨⟨_, rfl⟩, fun _ => ⟨rfl, rfl⟩, .inr ⟨ht, rfl⟩, .inl rfl, .inl rfl⟩

theorem enforceTemperature_onward : Onward o s (enforceTemperature o s e) := by
  have hchecked : Onward o s s.noteChecked :=
    ⟨⟨[], rfl⟩, fun h => ⟨h, rfl⟩, .inl rfl, .inl rfl, .inl rfl⟩
  unfold enforceTemperature
  split
  · rename_i ht
    split_ifs
    · exact stopForTemperature_onward o e s _ ht
    · exact .refl o s
    · split
      · exact hchecked.trans (stopForTemperature_onward o e s.noteChecked _ ht)
      · exact hchecked
  · exact .refl o s

theorem takeStopSignals_onward (signals : List Int) (s : RunState) :
    Onward o s (takeStopSignals o e s signals) := by
  induction signals generalizing s with
  | nil => exact .refl o s
  | cons signal rest ih =>
    refine Onward.trans ?_ (ih _)
    split_ifs with hsignal
    · exact ⟨⟨_, rfl⟩, fun h => ⟨h, rfl⟩, .inl rfl, .inl rfl, .inr ⟨rfl, hsignal⟩⟩
    · have hnone : s.stopSignal = none := by simpa using hsignal
      unfold stopForSignal
      split_ifs with hs
      · exact ⟨⟨[], rfl⟩, fun h => ⟨h, rfl⟩, .inl rfl, .inr ⟨hnone, hs⟩, .inl rfl⟩
      · exact ⟨⟨_, rfl⟩, fun _ => ⟨rfl, rfl⟩, .inl rfl, .inr ⟨hnone, rfl⟩, .inl rfl⟩

theorem tick_onward : Onward o s (tick o s e) := by
  have hdeadline : Onward o s (round o (stopAtDeadline o (s.readClock e) e) false e) := by
    unfold stopAtDeadline
    split_ifs
    · exact ⟨⟨_, rfl⟩, fun _ => ⟨rfl, rfl⟩, .inl rfl, .inl rfl, .inl rfl⟩
    · exact ⟨⟨[], rfl⟩, fun h => ⟨h, rfl⟩, .inl rfl, .inl rfl, .inl rfl⟩
  have hschedule : ∀ r : RunState, Onward o r (runSchedule o r e) := by
    intro r
    unfold runSchedule
    split
    · exact .refl o r
    · split_ifs with hr
      · exact .refl o r
      · exact runSteps_onward o e _ r (by simpa using hr)
  exact ((((hdeadline.trans (enforceTemperature_onward o e _)).trans (hschedule _)).trans
    (happen_onward o _ e.supervised)).trans (takeStopSignals_onward o e e.signals _)).trans
    (happen_onward o _ e.reaped)

end Workers

/-- Whatever a run meets, the controller's loop goes onward. -/
theorem run_tick_onward (o : RunOptions) (s : RunState) (ticks : List Tick) :
    Onward o s (run (tick o) s ticks) :=
  run_inv (Onward o s) (fun _ e hs => hs.trans (tick_onward o e _)) s ticks (.refl o s)

end LoadForge.Controller
