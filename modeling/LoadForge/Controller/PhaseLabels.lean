import LoadForge.Controller.PhaseMarks

namespace LoadForge.Controller

open Framework Mixed Telemetry Worker Course

section Due

variable (o : RunOptions) (s : RunState) (e : Tick)

/-- The run is stopped before its schedule is looked at: the deadline, or the ceiling. -/
def stopsEarly : Bool :=
  !s.stopRequested && (deadlineReached o s e || heatStops o e (round o (s.readClock e) false e))

def stepsDue : List Step :=
  if s.stopRequested || stopsEarly o s e then []
  else (o.steps.drop s.nextStep).takeWhile fun step => step.atNs ≤ e.elapsedNs

/-- The tick stops the run: early, or by a signal it takes after the schedule. -/
def stopDue : Bool :=
  stopsEarly o s e || (!s.stopRequested && !e.signals.isEmpty && s.stopSignal.isNone)

/-- The labels a tick marks, all at its one instant. -/
def labelsDue : List String :=
  (stepsDue o s e).map (·.phase) ++ if stopDue o s e then ["stop"] else []

/-- The marks of a tick are none, or one and later than the last. -/
def OnTime : Prop :=
  (labelsDue o s e).length = 0 ∨
    (labelsDue o s e).length = 1 ∧ (s.readClock e).marking.later = true

end Due

section Tick

variable (o : RunOptions) (e : Tick) (ho : o.marks = true)

include ho

theorem beforeSchedule_spec (s : RunState) (hs : s.course.enabled = true) :
    let before := enforceTemperature o (round o (stopAtDeadline o (s.readClock e) e) false e) e
    before.marking = (s.readClock e).marking.markAll (if stopsEarly o s e then ["stop"] else []) ∧
      before.course =
        { s.course with stopRequested := s.course.stopRequested || stopsEarly o s e } := by
  have hread : (s.readClock e).course = s.course := rfl
  have hdeadline := stopAtDeadline_spec o e ho (s.readClock e) hs
  have hsame : deadlineReached o (s.readClock e) e = deadlineReached o s e := rfl
  rw [hsame] at hdeadline
  by_cases hd : deadlineReached o s e = true
  · rw [if_pos hd, hread] at hdeadline
    obtain ⟨hmarking, hcourse⟩ := hdeadline
    have hearly : stopsEarly o s e = true := by
      unfold deadlineReached at hd
      simp_all [stopsEarly, deadlineReached]
    have henabled : (round o (stopAtDeadline o (s.readClock e) e) false e).course.enabled = true := by
      rw [round_course, hcourse]
      exact hs
    have hstopped :
        (round o (stopAtDeadline o (s.readClock e) e) false e).stopRequested = true := by
      have := congrArg stopRequested ((round_course o e _ false).trans hcourse)
      exact this
    have henforce := enforceTemperature_spec o e ho _ henabled
    rw [hstopped, Bool.not_true, Bool.false_and, if_neg Bool.false_ne_true, round_marking,
      round_course, hmarking, hcourse] at henforce
    simp [henforce.1, henforce.2, hearly]
  · rw [if_neg hd] at hdeadline
    have henabled : (round o (s.readClock e) false e).course.enabled = true := by
      rw [round_course]
      exact hs
    have henforce := enforceTemperature_spec o e ho _ henabled
    have hstopped : (round o (s.readClock e) false e).stopRequested = s.stopRequested := rfl
    have hearly : stopsEarly o s e =
        (!s.stopRequested && heatStops o e (round o (s.readClock e) false e)) := by
      simp [stopsEarly, hd]
    rw [hstopped, ← hearly, round_marking, round_course, hread] at henforce
    simp only [hdeadline]
    cases hs' : stopsEarly o s e with
    | true =>
      rw [hs', if_pos rfl] at henforce
      simp [henforce.1, henforce.2]
    | false =>
      rw [hs', if_neg Bool.false_ne_true] at henforce
      simp [henforce.1, henforce.2]

theorem tick_spec (s : RunState) (hs : s.course.enabled = true) :
    (tick o s e).marking = (s.readClock e).marking.markAll (labelsDue o s e) ∧
      (tick o s e).course =
        { s.course with
          stopRequested := s.course.stopRequested || stopDue o s e
          signalled := s.course.signalled || !e.signals.isEmpty
          nextStep := s.course.nextStep + (stepsDue o s e).length
          stepsRun := s.course.stepsRun + (stepsDue o s e).length } := by
  obtain ⟨hmarking, hcourse⟩ := beforeSchedule_spec o e ho s hs
  have htick : tick o s e = (takeStopSignals o e ((runSchedule o (enforceTemperature o
      (round o (stopAtDeadline o (s.readClock e) e) false e) e) e).happen o e.supervised)
      e.signals).happen o e.reaped := rfl
  rw [htick]
  generalize enforceTemperature o (round o (stopAtDeadline o (s.readClock e) e) false e) e = before
    at hmarking hcourse
  have hstopped : before.stopRequested = (s.stopRequested || stopsEarly o s e) :=
    congrArg stopRequested hcourse
  have hnext : before.nextStep = s.nextStep := congrArg nextStep hcourse
  have henabled : before.course.enabled = true := by rwa [hcourse]
  obtain ⟨hrunMarking, hrunCourse⟩ := runSchedule_spec o e ho before henabled
  rw [hstopped, hnext] at hrunMarking hrunCourse
  change (runSchedule o before e).marking = before.marking.markAll ((stepsDue o s e).map (·.phase))
    at hrunMarking
  change (runSchedule o before e).course =
    { before.course with
      nextStep := before.course.nextStep + (stepsDue o s e).length
      stepsRun := before.course.stepsRun + (stepsDue o s e).length } at hrunCourse
  generalize runSchedule o before e = scheduled at hrunMarking hrunCourse
  rw [hcourse] at hrunCourse
  have hsignals := takeStopSignals_spec o e ho e.signals (scheduled.happen o e.supervised)
    (by rw [happen_course, hrunCourse]; exact hs)
  have hstopped' : (scheduled.happen o e.supervised).stopRequested =
      (s.stopRequested || stopsEarly o s e) := congrArg stopRequested hrunCourse
  have hsignal' : (scheduled.happen o e.supervised).stopSignal.isNone = s.stopSignal.isNone := by
    have := congrArg signalled hrunCourse
    simp only [RunState.course] at this
    simp only [← Option.not_isSome]
    exact congrArg not this
  rw [hstopped', hsignal', happen_marking, happen_course, hrunMarking, hrunCourse, hmarking]
    at hsignals
  rw [happen_marking, happen_course]
  unfold labelsDue stopDue
  cases hearly : stopsEarly o s e with
  | true =>
    have hnone : stepsDue o s e = [] := by simp [stepsDue, hearly]
    simpa [hearly, hnone] using hsignals
  | false =>
    rw [hearly, Bool.or_false] at hsignals
    cases hlate : (!s.stopRequested && !e.signals.isEmpty && s.stopSignal.isNone) with
    | true =>
      rw [hlate, if_pos rfl] at hsignals
      have hsignalled : (!e.signals.isEmpty) = true := by
        simp only [Bool.and_eq_true] at hlate
        exact hlate.1.2
      simpa [hsignalled, Marking.markAll_append] using hsignals
    | false =>
      rw [hlate, if_neg Bool.false_ne_true] at hsignals
      simpa using hsignals

end Tick

/-- The marks are "run", the labels of the steps run and "stop", with none refused. -/
def Labelled (o : RunOptions) (s : RunState) : Prop :=
  s.sampling.timeline.phases.items.map (·.label) =
      "run" :: (o.steps.take s.stepsRun).map (·.phase) ++
        (if s.stopRequested then ["stop"] else []) ∧
    refusedMarks s.sampling.faults = []

instance (o : RunOptions) (s : RunState) : Decidable (Labelled o s) := by
  unfold Labelled
  infer_instance

instance (o : RunOptions) (s : RunState) (e : Tick) : Decidable (OnTime o s e) := by
  unfold OnTime
  infer_instance

theorem take_takeWhile {α : Type} (p : α → Bool) (xs : List α) (n : Nat) :
    xs.take (n + ((xs.drop n).takeWhile p).length) = xs.take n ++ (xs.drop n).takeWhile p := by
  have hprefix := List.prefix_iff_eq_take.mp (List.takeWhile_prefix (l := xs.drop n) p)
  rw [List.take_add, ← hprefix]

theorem expected_labels (o : RunOptions) (s : RunState) (e : Tick) (hn : s.nextStep = s.stepsRun) :
    "run" :: (o.steps.take (s.stepsRun + (stepsDue o s e).length)).map (·.phase) ++
        (if (s.stopRequested || stopDue o s e) = true then ["stop"] else []) =
      "run" :: (o.steps.take s.stepsRun).map (·.phase) ++
        (if s.stopRequested = true then ["stop"] else []) ++ labelsDue o s e := by
  cases hstop : s.stopRequested with
  | true =>
    have hsteps : stepsDue o s e = [] := by simp [stepsDue, hstop]
    have hdue : stopDue o s e = false := by simp [stopDue, stopsEarly, hstop]
    simp [labelsDue, hsteps, hdue]
  | false =>
    have htake : o.steps.take (s.stepsRun + (stepsDue o s e).length) =
        o.steps.take s.stepsRun ++ stepsDue o s e := by
      unfold stepsDue
      rw [hn]
      split_ifs
      · simp
      · exact take_takeWhile _ _ _
    simp [labelsDue, htake]

/-- One tick of a run whose labels are right leaves them right exactly when it is on time. -/
theorem labelled_tick_iff (o : RunOptions) (s : RunState) (e : Tick) (ho : o.marks = true)
    (hs : s.course.enabled = true) (hn : s.nextStep = s.stepsRun) (hl : Labelled o s) :
    Labelled o (tick o s e) ↔ OnTime o s e := by
  obtain ⟨hmarking, hcourse⟩ := tick_spec o e ho s hs
  have hphases : (tick o s e).sampling.timeline.phases.items =
      ((s.readClock e).marking.markAll (labelsDue o s e)).phases := congrArg Marking.phases hmarking
  have hrefused : refusedMarks (tick o s e).sampling.faults =
      ((s.readClock e).marking.markAll (labelsDue o s e)).refused :=
    congrArg Marking.refused hmarking
  have hstop : (tick o s e).stopRequested = (s.stopRequested || stopDue o s e) :=
    congrArg stopRequested hcourse
  have hrun : (tick o s e).stepsRun = s.stepsRun + (stepsDue o s e).length :=
    congrArg stepsRun hcourse
  have hbefore : (s.readClock e).marking.refused = [] := hl.2
  have hiff := (s.readClock e).marking.markAll_refused_nil_iff (labelsDue o s e) hbefore
  unfold Labelled
  rw [hrefused, hiff, hphases, hstop, hrun, expected_labels o s e hn]
  constructor
  · intro hboth
    exact hboth.2
  · intro htime
    refine ⟨?_, htime⟩
    have hmarks := (s.readClock e).marking.markAll_phases (labelsDue o s e) htime
    rw [hmarks]
    exact congrArg (· ++ labelsDue o s e) hl.1

structure LabelsKept (o : RunOptions) (s : RunState) : Prop where
  enabled : s.course.enabled = true
  counted : s.nextStep = s.stepsRun
  labelled : Labelled o s

theorem begin_kept (o : RunOptions) (plans : List WorkerPlan) (t : BoundedTimeline)
    (startedNs : Int) (sample : Nat → List Reading) (ho : o.marks = true)
    (hsampler : o.sampler.isSome = true) (ht : t.Fresh) :
    LabelsKept o (begin o plans t startedNs sample) := by
  obtain ⟨henabled, hphases, hrefused⟩ := takeRound_marks o.toSamplingOptions
    { enabled := true, live := true, timeline := t } startedNs true sample
  obtain ⟨hmarked, hmarks⟩ := markPhase_marks o.toSamplingOptions _ "run" startedNs ho henabled
  have hfirst : t.phases.follows ⟨startedNs, "run"⟩ = true := by
    simp [Ascending.follows, ht.1]
  rw [hphases, if_pos hfirst, hrefused, ht.1] at hmarks
  have hbegin : (begin o plans t startedNs sample).sampling =
      markPhase o.toSamplingOptions (takeRound o.toSamplingOptions
        { enabled := true, live := true, timeline := t } startedNs true sample) "run" startedNs := by
    have hnot : o.sampler.isNone = false := by simpa using hsampler
    simp [begin, beginTelemetry, hnot]
  refine ⟨?_, rfl, ?_, ?_⟩
  · simp only [RunState.course, hbegin]
    exact hmarked
  · rw [hbegin, hmarks.1]
    rfl
  · rw [hbegin, hmarks.2]
    rfl

/-- The labels on the timeline are those of the steps run exactly when every tick is on time. -/
theorem phase_labels_iff (o : RunOptions) (plans : List WorkerPlan) (t : BoundedTimeline)
    (startedNs : Int) (sample : Nat → List Reading) (ticks : List Tick) (ho : o.marks = true)
    (hsampler : o.sampler.isSome = true) (ht : t.Fresh) :
    Along (tick o) (fun s e => Labelled o (tick o s e)) (begin o plans t startedNs sample) ticks ↔
      Along (tick o) (OnTime o) (begin o plans t startedNs sample) ticks := by
  refine along_congr (LabelsKept o) ?_ ?_ _ ticks
    (begin_kept o plans t startedNs sample ho hsampler ht)
  · intro s e hs hl
    obtain ⟨-, hcourse⟩ := tick_spec o e ho s hs.enabled
    refine ⟨?_, ?_, hl⟩
    · rw [hcourse]
      exact hs.enabled
    · have hnext : (tick o s e).nextStep = s.nextStep + (stepsDue o s e).length :=
        congrArg nextStep hcourse
      have hrun : (tick o s e).stepsRun = s.stepsRun + (stepsDue o s e).length :=
        congrArg stepsRun hcourse
      rw [hnext, hrun, hs.counted]
  · intro s e hs
    exact labelled_tick_iff o s e ho hs.enabled hs.counted hs.labelled

/-- A run of one worker whose schedule has a step at each of two instants. -/
def twoStepOptions : RunOptions where
  sampler := some ⟨true, []⟩
  sampleIntervalNs := 1000
  durationNs := 100000
  schedule := some {
    workers := 1, phase := "warm", workload := "integer"
    steps := [⟨100, "busy", "integer", []⟩, ⟨200, "rest", "integer", []⟩] }

theorem phase_labels_two_ticks :
    twoStepOptions.marks = true ∧ twoStepOptions.sampler.isSome = true ∧
      Along (tick twoStepOptions)
        (fun s e => Labelled twoStepOptions (tick twoStepOptions s e))
        (begin twoStepOptions [soloPlan] { capacity := 8 } 0 fun _ => [])
        [{ sinceNs := 150, elapsedNs := 150 }, { sinceNs := 150, elapsedNs := 300 }] := by
  refine ⟨rfl, rfl, ?_⟩
  have ht : BoundedTimeline.Fresh { capacity := 8 } := ⟨rfl, by simp⟩
  rw [phase_labels_iff twoStepOptions [soloPlan] { capacity := 8 } 0 (fun _ => []) _ rfl rfl ht]
  decide

/-- A tick that comes late runs both steps, and the second one's mark is refused. -/
theorem late_tick_loses_label :
    problem { workers := 1, phase := "warm", workload := "integer",
              steps := twoStepOptions.steps } 1 = none ∧
      let late := tick twoStepOptions
        (begin twoStepOptions [soloPlan] { capacity := 8 } 0 fun _ => [])
        { sinceNs := 300, elapsedNs := 300 }
      late.stepsRun = 2 ∧
        late.sampling.timeline.phases.items.map (·.label) = ["run", "busy"] ∧
        late.sampling.fault = some "phase \"rest\" refused: out of order" ∧
        ¬Labelled twoStepOptions late := by
  decide

end LoadForge.Controller
