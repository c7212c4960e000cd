import LoadForge.Controller.Tick

namespace LoadForge.Controller

open Framework Mixed Telemetry Worker

def refusedMarks (faults : List TelemetryFault) : List String :=
  faults.filterMap fun
    | .phaseRefused label _ => some label
    | .samplingStopped _ => none

/-- The marks of a run at an instant: those on the timeline and those refused. -/
@[ext] structure Marking where
  nowNs : Int
  phases : List PhaseMark
  refused : List String

def RunState.marking (s : RunState) : Marking where
  nowNs := s.clockRunningNs
  phases := s.sampling.timeline.phases.items
  refused := refusedMarks s.sampling.faults

@[ext] structure Course where
  enabled : Bool
  stopRequested : Bool
  signalled : Bool
  nextStep : Nat
  stepsRun : Nat

def RunState.course (s : RunState) : Course where
  enabled := s.sampling.enabled
  stopRequested := s.stopRequested
  signalled := s.stopSignal.isSome
  nextStep := s.nextStep
  stepsRun := s.stepsRun

namespace Marking

def later (m : Marking) : Bool :=
  match m.phases.getLast? with
  | none => true
  | some mark => decide (mark.startNs < m.nowNs)

def mark (m : Marking) (label : String) : Marking :=
  if m.later then { m with phases := m.phases ++ [⟨m.nowNs, label⟩] }
  else { m with refused := m.refused ++ [label] }

def markAll (m : Marking) (labels : List String) : Marking := labels.foldl mark m

variable (m : Marking)

@[simp] theorem markAll_nil : m.markAll [] = m := rfl

@[simp] theorem markAll_cons (label : String) (labels : List String) :
    m.markAll (label :: labels) = (m.mark label).markAll labels := rfl

theorem markAll_append (as bs : List String) :
    m.markAll (as ++ bs) = (m.markAll as).markAll bs := List.foldl_append

theorem mark_of_later (label : String) (hl : m.later = true) :
    m.mark label = { m with phases := m.phases ++ [⟨m.nowNs, label⟩] } := by
  simp [mark, hl]

theorem mark_of_not_later (label : String) (hl : m.later = false) :
    m.mark label = { m with refused := m.refused ++ [label] } := by
  simp [mark, hl]

theorem later_mark (label : String) : (m.mark label).later = false := by
  cases hl : m.later with
  | true =>
    rw [mark_of_later m label hl]
    simp [later]
  | false =>
    rw [mark_of_not_later m label hl]
    exact hl

theorem markAll_of_not_later (labels : List String) (hl : m.later = false) :
    m.markAll labels = { m with refused := m.refused ++ labels } := by
  induction labels generalizing m with
  | nil => simp
  | cons label labels ih =>
    have hstep : (m.mark label).later = false := later_mark m label
    rw [markAll_cons, ih _ hstep, mark_of_not_later m label hl]
    simp

theorem markAll_refused_nil_iff (labels : List String) (hm : m.refused = []) :
    (m.markAll labels).refused = [] ↔
      labels.length = 0 ∨ labels.length = 1 ∧ m.later = true := by
  cases labels with
  | nil => simp [hm]
  | cons label labels =>
    cases hl : m.later with
    | false => simp [markAll_of_not_later m (label :: labels) hl]
    | true =>
      rw [markAll_cons, markAll_of_not_later _ labels (later_mark m label),
        mark_of_later m label hl]
      simp [hm]

theorem markAll_phases (labels : List String)
    (hk : labels.length = 0 ∨ labels.length = 1 ∧ m.later = true) :
    (m.markAll labels).phases.map (·.label) = m.phases.map (·.label) ++ labels := by
  rcases hk with hk | ⟨hk, hl⟩
  · rw [List.length_eq_zero_iff.mp hk]
    simp
  · obtain ⟨label, rfl⟩ := List.length_eq_one_iff.mp hk
    simp [mark_of_later m label hl]

end Marking

theorem append_phases (t t' : BoundedTimeline) (id : Nat) (point : Point)
    (ha : t.append id point = .ok t') : t'.phases = t.phases := by
  unfold BoundedTimeline.append at ha
  split at ha
  · cases ha
  · split at ha
    · cases ha
    · cases ha
      rfl

theorem appendAll_phases (nowNs : Int) (t : BoundedTimeline) (rs : List (Nat × Reading)) :
    (appendAll nowNs t rs).1.phases = t.phases := by
  induction rs generalizing t with
  | nil => rfl
  | cons r rs ih =>
    obtain ⟨id, reading⟩ := r
    unfold appendAll
    split
    · rfl
    · rename_i t' ha
      rw [ih t', append_phases t t' id _ ha]

theorem round_phases (sampler : Sampler) (sample : Nat → List Reading) (t : BoundedTimeline)
    (nowNs : Int) : (sampler.round sample t nowNs).1.phases = t.phases := by
  unfold Sampler.round
  split_ifs
  · exact appendAll_phases nowNs t _
  · rfl

theorem takeRound_marks (o : SamplingOptions) (s : Sampling) (nowNs : Int) (force : Bool)
    (sample : Nat → List Reading) :
    (takeRound o s nowNs force sample).enabled = s.enabled ∧
      (takeRound o s nowNs force sample).timeline.phases = s.timeline.phases ∧
      refusedMarks (takeRound o s nowNs force sample).faults = refusedMarks s.faults := by
  unfold takeRound
  cases ho : o.sampler with
  | none => exact ⟨rfl, rfl, rfl⟩
  | some sampler =>
    have hphases := round_phases sampler sample s.timeline nowNs
    by_cases hdue : roundDue o s nowNs force = true
    · simp only [hdue, if_true]
      cases (sampler.round sample s.timeline nowNs).2 with
      | error refusal => exact ⟨rfl, hphases, by simp [noteRound, refusedMarks]⟩
      | ok appended => exact ⟨rfl, hphases, rfl⟩
    · simp [hdue]

theorem markPhase_marks (o : SamplingOptions) (s : Sampling) (label : String) (nowNs : Int)
    (ho : o.marks = true) (hs : s.enabled = true) :
    (markPhase o s label nowNs).enabled = true ∧
      if s.timeline.phases.follows ⟨nowNs, label⟩ = true then
        (markPhase o s label nowNs).timeline.phases.items =
            s.timeline.phases.items ++ [⟨nowNs, label⟩] ∧
          refusedMarks (markPhase o s label nowNs).faults = refusedMarks s.faults
      else
        (markPhase o s label nowNs).timeline.phases.items = s.timeline.phases.items ∧
          refusedMarks (markPhase o s label nowNs).faults = refusedMarks s.faults ++ [label] := by
  unfold markPhase BoundedTimeline.markPhase
  by_cases hf : s.timeline.phases.follows ⟨nowNs, label⟩ = true
  · simp [ho, hs, hf]
  · simp [ho, hs, hf, refusedMarks]

section Tick

variable (o : RunOptions) (e : Tick) (ho : o.marks = true) (s : RunState)

@[simp] theorem happen_marking (es : List (Nat × WorkerEvent)) :
    (s.happen o es).marking = s.marking := rfl

@[simp] theorem happen_course (es : List (Nat × WorkerEvent)) :
    (s.happen o es).course = s.course := rfl

@[simp] theorem round_marking (force : Bool) : (round o s force e).marking = s.marking := by
  obtain ⟨-, hphases, hrefused⟩ :=
    takeRound_marks o.toSamplingOptions s.sampling s.clockRunningNs force e.sample
  simp only [RunState.marking, round, hphases, hrefused]

@[simp] theorem round_course (force : Bool) : (round o s force e).course = s.course := by
  obtain ⟨henabled, -⟩ :=
    takeRound_marks o.toSamplingOptions s.sampling s.clockRunningNs force e.sample
  simp only [RunState.course, round, henabled]

@[simp] theorem noteChecked_marking : s.noteChecked.marking = s.marking := rfl

@[simp] theorem noteChecked_course : s.noteChecked.course = s.course := rfl

@[simp] theorem requestStop_marking :
    (requestStop o s e).marking = s.marking := rfl

@[simp] theorem requestStop_course :
    (requestStop o s e).course = { s.course with stopRequested := true } := rfl

variable (hs : s.course.enabled = true)
include ho hs

theorem mark_marking (label : String) :
    (mark o s label).marking = s.marking.mark label := by
  obtain ⟨-, hmarks⟩ := markPhase_marks o.toSamplingOptions s.sampling label s.clockRunningNs ho hs
  have hlater : s.marking.later = s.sampling.timeline.phases.follows ⟨s.clockRunningNs, label⟩ := by
    unfold Marking.later Ascending.follows RunState.marking
    cases s.sampling.timeline.phases.items.getLast? <;> rfl
  unfold Marking.mark
  rw [hlater]
  split_ifs at hmarks ⊢
  · exact Marking.ext rfl hmarks.1 hmarks.2
  · exact Marking.ext rfl hmarks.1 hmarks.2

theorem mark_course (label : String) :
    (mark o s label).course = s.course := by
  obtain ⟨henabled, -⟩ :=
    markPhase_marks o.toSamplingOptions s.sampling label s.clockRunningNs ho hs
  exact Course.ext (henabled.trans hs.symm) rfl rfl rfl rfl

theorem runStep_spec (step : Step) :
    (runStep o e s step).marking = s.marking.mark step.phase ∧
      (runStep o e s step).course =
        { s.course with
          nextStep := s.course.nextStep + 1, stepsRun := s.course.stepsRun + 1 } := by
  obtain ⟨es, hes⟩ := runStep_happens o e s step
  rw [hes, happen_marking, happen_course]
  exact ⟨mark_marking o ho s.countStep hs step.phase, mark_course o ho s.countStep hs step.phase⟩

omit hs in
/-- The catch-up loop marks the label of every step that is due, all at one instant. -/
theorem runSteps_spec (steps : List Step) (s : RunState) (hs : s.course.enabled = true) :
    let due := steps.takeWhile fun step => step.atNs ≤ e.elapsedNs
    (runSteps o e s steps).marking = s.marking.markAll (due.map (·.phase)) ∧
      (runSteps o e s steps).course =
        { s.course with
          nextStep := s.course.nextStep + due.length
          stepsRun := s.course.stepsRun + due.length } := by
  induction steps generalizing s with
  | nil => exact ⟨rfl, rfl⟩
  | cons step rest ih =>
    unfold runSteps
    by_cases hdue : step.atNs ≤ e.elapsedNs
    · obtain ⟨hmarking, hcourse⟩ := runStep_spec o e ho s hs step
      have henabled : (runStep o e s step).course.enabled = true := by
        rw [hcourse]
        exact hs
      obtain ⟨hmarkings, hcourses⟩ := ih _ henabled
      rw [if_pos hdue, hmarkings, hcourses, List.takeWhile_cons_of_pos (by simpa using hdue),
        hmarking, hcourse]
      simp [Nat.add_assoc, Nat.add_comm 1]
    · rw [if_neg hdue, List.takeWhile_cons_of_neg (by simpa using hdue)]
      exact ⟨rfl, rfl⟩

private theorem mark_stop_spec :
    (requestStop o (mark o s "stop") e).marking = s.marking.mark "stop" ∧
      (requestStop o (mark o s "stop") e).course = { s.course with stopRequested := true } := by
  rw [requestStop_marking, requestStop_course, mark_marking o ho s hs, mark_course o ho s hs]
  exact ⟨rfl, rfl⟩

theorem stopAtDeadline_spec :
    if deadlineReached o s e = true then
      (stopAtDeadline o s e).marking = s.marking.mark "stop" ∧
        (stopAtDeadline o s e).course = { s.course with stopRequested := true }
    else stopAtDeadline o s e = s := by
  unfold stopAtDeadline
  split_ifs
  · have hround : (round o s true e).course.enabled = true := by rwa [round_course]
    have hstop := mark_stop_spec o e ho (round o s true e) hround
    rwa [round_marking, round_course] at hstop
  · rfl

omit ho hs

/-- The ceiling calls for a stop: nothing reads it any more, or a new round is too hot. -/
def heatStops (s : RunState) : Bool :=
  o.ceilingC.isSome && s.temperatureStop.isNone &&
    (!s.sampling.live ||
      (s.sampling.lastRoundNs != s.temperatureCheckedNs && e.observed.isSome))

include ho hs

theorem stopForTemperature_spec (stop : TemperatureStop) :
    if s.stopRequested = true then
      (stopForTemperature o s stop e).marking = s.marking ∧
        (stopForTemperature o s stop e).course = s.course
    else
      (stopForTemperature o s stop e).marking = s.marking.mark "stop" ∧
        (stopForTemperature o s stop e).course = { s.course with stopRequested := true } := by
  unfold stopForTemperature
  split_ifs
  · exact ⟨rfl, rfl⟩
  · exact mark_stop_spec o e ho (s.noteHeat stop) hs

theorem enforceTemperature_spec :
    if (!s.stopRequested && heatStops o e s) = true then
      (enforceTemperature o s e).marking = s.marking.mark "stop" ∧
        (enforceTemperature o s e).course = { s.course with stopRequested := true }
    else
      (enforceTemperature o s e).marking = s.marking ∧
        (enforceTemperature o s e).course = s.course := by
  unfold enforceTemperature heatStops
  cases hc : o.ceilingC with
  | none => simp
  | some ceiling =>
    cases ht : s.temperatureStop with
    | some stop => simp
    | none =>
      by_cases hlive : s.sampling.live = true
      · by_cases hchecked : s.sampling.lastRoundNs = s.temperatureCheckedNs
        · simp [hlive, hchecked]
        · cases hseen : e.observed with
          | none =>
            simp only [hlive, hchecked, Bool.not_true, Bool.false_eq_true, if_false,
              Option.isSome_none, Bool.and_false, Bool.or_false]
            exact ⟨rfl, rfl⟩
          | some stop =>
            have hstop := stopForTemperature_spec o e ho s.noteChecked hs stop
            have hsame : s.noteChecked.stopRequested = s.stopRequested := rfl
            rw [hsame] at hstop
            cases hr : s.stopRequested <;> simpa [hlive, hchecked, hr] using hstop
      · have hstop := stopForTemperature_spec o e ho s hs (unwatched s ceiling e)
        cases hr : s.stopRequested <;> simpa [hlive, hr] using hstop

theorem runSchedule_spec :
    let due := if s.stopRequested = true then []
      else (o.steps.drop s.nextStep).takeWhile fun step => step.atNs ≤ e.elapsedNs
    (runSchedule o s e).marking = s.marking.markAll (due.map (·.phase)) ∧
      (runSchedule o s e).course =
        { s.course with
          nextStep := s.course.nextStep + due.length
          stepsRun := s.course.stepsRun + due.length } := by
  unfold runSchedule RunOptions.steps
  cases o.schedule with
  | none => simp
  | some schedule =>
    simp only [Option.map_some, Option.getD_some]
    split_ifs
    · exact ⟨rfl, rfl⟩
    · exact runSteps_spec o e ho (schedule.steps.drop s.nextStep) s hs

theorem stopForSignal_spec (signal : Int) :
    if s.stopRequested = true then
      (stopForSignal o s signal e).marking = s.marking ∧
        (stopForSignal o s signal e).course = { s.course with signalled := true }
    else
      (stopForSignal o s signal e).marking = s.marking.mark "stop" ∧
        (stopForSignal o s signal e).course =
          { s.course with stopRequested := true, signalled := true } := by
  unfold stopForSignal
  split_ifs
  · exact ⟨rfl, rfl⟩
  · have hround : (round o (s.noteSignal signal) true e).course.enabled = true := by
      rw [round_course]
      exact hs
    have hstop := mark_stop_spec o e ho (round o (s.noteSignal signal) true e) hround
    rwa [round_marking, round_course] at hstop

omit ho hs

theorem killForSignal_same :
    (killForSignal o s e).marking = s.marking ∧ (killForSignal o s e).course = s.course :=
  ⟨rfl, rfl⟩

theorem takeStopSignals_signalled (signals : List Int) (s : RunState)
    (hs : s.course.signalled = true) :
    (takeStopSignals o e s signals).marking = s.marking ∧
      (takeStopSignals o e s signals).course = s.course := by
  induction signals generalizing s with
  | nil => exact ⟨rfl, rfl⟩
  | cons signal rest ih =>
    have hsome : s.stopSignal.isSome = true := hs
    obtain ⟨hmarking, hcourse⟩ := killForSignal_same o e s
    have hkilled : (killForSignal o s e).course.signalled = true := by rwa [hcourse]
    unfold takeStopSignals
    rw [if_pos hsome, (ih _ hkilled).1, (ih _ hkilled).2]
    exact ⟨hmarking, hcourse⟩

include ho

/-- Of all the signals of a tick at most the first makes a mark. -/
theorem takeStopSignals_spec (signals : List Int) (s : RunState) (hs : s.course.enabled = true) :
    if (!s.stopRequested && !signals.isEmpty && s.stopSignal.isNone) = true then
      (takeStopSignals o e s signals).marking = s.marking.mark "stop" ∧
        (takeStopSignals o e s signals).course =
          { s.course with stopRequested := true, signalled := true }
    else
      (takeStopSignals o e s signals).marking = s.marking ∧
        (takeStopSignals o e s signals).course =
          { s.course with signalled := s.course.signalled || !signals.isEmpty } := by
  cases signals with
  | nil => simp [takeStopSignals]
  | cons signal rest =>
    cases hsig : s.stopSignal with
    | some first =>
      have hsome : s.course.signalled = true := by simp [RunState.course, hsig]
      obtain ⟨hmarking, hcourse⟩ := takeStopSignals_signalled o e (signal :: rest) s hsome
      have hsame : { s.course with signalled := true } = s.course :=
        Course.ext rfl rfl hsome.symm rfl rfl
      simp [hsome, hmarking, hcourse, hsame]
    | none =>
      have hfirst := stopForSignal_spec o e ho s hs signal
      have hsignalled : (stopForSignal o s signal e).course.signalled = true := by
        split_ifs at hfirst <;> rw [hfirst.2]
      obtain ⟨hmarking, hcourse⟩ :=
        takeStopSignals_signalled o e rest (stopForSignal o s signal e) hsignalled
      unfold takeStopSignals
      simp only [hsig, Option.isSome_none, Bool.false_eq_true, if_false, hmarking, hcourse]
      cases hr : s.stopRequested <;> simpa [hr] using hfirst

end Tick

end LoadForge.Controller
