import LoadForge.Controller.PhaseLabels
import LoadForge.Controller.PhaseRounds
import LoadForge.Statistics.Phases

namespace LoadForge.Controller

open Framework Mixed Statistics Telemetry Worker List

/-- A tick that runs a step of the schedule has a round at its instant: one is due, or was
taken at it. -/
def RoundWithStep (o : RunOptions) (s : RunState) (e : Tick) : Prop :=
  stepsDue o s e ≠ [] →
    roundDue o.toSamplingOptions s.sampling (s.readClock e).clockRunningNs false = true ∨
      s.sampling.lastRoundNs = (s.readClock e).clockRunningNs

instance (o : RunOptions) (s : RunState) (e : Tick) : Decidable (RoundWithStep o s e) := by
  unfold RoundWithStep
  infer_instance

/-- What a run keeps while every step comes with a round. -/
structure RoundsKept (o : RunOptions) (sampler : Sampler) (s : RunState) : Prop where
  enabled : s.course.enabled = true
  aligned : AlignedRun sampler s
  judged : Judged o s

section Tick

variable (o : RunOptions) (e : Tick) (sampler : Sampler) (ho : o.sampler = some sampler)

theorem enforceTemperature_of_not_heat (s : RunState) (hh : heatStops o e s = false) :
    (enforceTemperature o s e).sampling = s.sampling ∧
      (enforceTemperature o s e).clockRunningNs = s.clockRunningNs := by
  unfold enforceTemperature
  unfold heatStops at hh
  cases hceiling : o.ceilingC with
  | none => exact ⟨rfl, rfl⟩
  | some ceiling =>
    cases hheat : s.temperatureStop with
    | some stop => exact ⟨rfl, rfl⟩
    | none =>
      simp only
      split_ifs with hlive hchecked
      · simp [hceiling, hheat, hlive] at hh
      · exact ⟨rfl, rfl⟩
      · cases hseen : e.observed with
        | none => exact ⟨rfl, rfl⟩
        | some stop => simp_all

theorem stopAtDeadline_of_running (s : RunState)
    (hs : (stopAtDeadline o s e).stopRequested = false) : stopAtDeadline o s e = s := by
  unfold stopAtDeadline at hs ⊢
  split_ifs at hs ⊢
  · cases hs
  · rfl

include ho

theorem round_now (s : RunState)
    (h : roundDue o.toSamplingOptions s.sampling (s.readClock e).clockRunningNs false = true ∨
      s.sampling.lastRoundNs = (s.readClock e).clockRunningNs) :
    RoundNow (round o (s.readClock e) false e) := by
  intro hlive
  by_cases hdue : roundDue o.toSamplingOptions (s.readClock e).sampling
      (s.readClock e).clockRunningNs false = true
  · obtain ⟨n, -, htake⟩ := takeRound_taken o.toSamplingOptions sampler ho _ _ _ _ hdue hlive
    simp only [round]
    rw [htake]
    rfl
  · simp only [round, takeRound_skipped o.toSamplingOptions sampler ho _ _ _ e.sample hdue]
    exact h.resolve_left hdue

theorem round_judged_now (s : RunState) (hs : RoundsKept o sampler s)
    (hstop : s.stopRequested = false) (hceiling : o.ceilingC.isSome = true)
    (hheat : s.temperatureStop = none) (hnew : (round o (s.readClock e) false e).sampling.lastRoundNs ≠
      s.temperatureCheckedNs) : RoundNow (round o (s.readClock e) false e) := by
  intro hlive
  have hbefore : s.sampling.live = true :=
    takeRound_live o.toSamplingOptions sampler ho _ _ _ _ hlive
  by_cases hdue : roundDue o.toSamplingOptions (s.readClock e).sampling
      (s.readClock e).clockRunningNs false = true
  · exact round_now o e sampler ho s (.inl hdue) hlive
  · have hskip := takeRound_skipped o.toSamplingOptions sampler ho _ _ _ e.sample hdue
    simp only [round, hskip] at hnew
    exact absurd (hs.judged hbefore hstop hheat hceiling).symm hnew

theorem tick_roundsKept (hmarks : o.marks = true) (s : RunState) (hs : RoundsKept o sampler s)
    (hr : RoundWithStep o s e) : RoundsKept o sampler (tick o s e) := by
  obtain ⟨-, hcourse⟩ := tick_spec o e hmarks s hs.enabled
  obtain ⟨-, hbefore⟩ := beforeSchedule_spec o e hmarks s hs.enabled
  have hread : AlignedRun sampler (s.readClock e) := readClock_aligned e sampler s hs.aligned
  have hround := round_aligned o e sampler ho _ false (stopAtDeadline_aligned o e sampler ho _ hread)
  have henforce : AlignedRun sampler
      (enforceTemperature o (round o (stopAtDeadline o (s.readClock e) e) false e) e) := by
    refine enforceTemperature_aligned o e sampler _ hround ?_
    intro hstop hceiling hheat hnew
    have hsame := stopAtDeadline_of_running o e (s.readClock e) hstop
    rw [hsame] at hstop hheat hnew ⊢
    exact round_judged_now o e sampler ho s hs hstop hceiling hheat hnew
  have hschedule : AlignedRun sampler (runSchedule o
      (enforceTemperature o (round o (stopAtDeadline o (s.readClock e) e) false e) e) e) := by
    refine runSchedule_aligned o e sampler _ henforce ?_
    intro hstop hdue
    have hnext : (enforceTemperature o (round o (stopAtDeadline o (s.readClock e) e) false e)
        e).nextStep = s.nextStep := congrArg Course.nextStep hbefore
    have hrunning := (congrArg Course.stopRequested hbefore).symm.trans hstop
    rw [Bool.or_eq_false_iff] at hrunning
    have hearly := hrunning.2
    have hsteps : stepsDue o s e ≠ [] := by
      have hoff : (s.stopRequested || stopsEarly o s e) = false := Bool.or_eq_false_iff.mpr hrunning
      rw [stepsDue, hoff, if_neg Bool.false_ne_true, ← hnext]
      exact hdue
    simp only [stopsEarly, Bool.and_eq_false_iff, Bool.not_eq_false', Bool.or_eq_false_iff]
      at hearly
    have hnot : s.stopRequested = false := hrunning.1
    obtain ⟨hdeadline, hheat⟩ := hearly.resolve_left (by simp [hnot])
    have hsame : stopAtDeadline o (s.readClock e) e = s.readClock e := by
      have hoff : deadlineReached o (s.readClock e) e = false := hdeadline
      simp [stopAtDeadline, hoff]
    obtain ⟨hsampling, hclock⟩ := enforceTemperature_of_not_heat o e _ hheat
    have hnow := round_now o e sampler ho s (hr hsteps)
    rw [hsame]
    intro hlive
    rw [hsampling] at hlive ⊢
    rw [hclock]
    exact hnow hlive
  refine ⟨?_, ?_, ?_⟩
  · rw [hcourse]
    exact hs.enabled
  · exact takeStopSignals_aligned o e sampler ho e.signals _ hschedule
  · exact takeStopSignals_judged o e e.signals _
      (runSchedule_judged o e _ (enforceTemperature_judged o e _))

end Tick

theorem beginTelemetry_aligned (o : SamplingOptions) (sampler : Sampler) (t : BoundedTimeline)
    (startedNs : Int) (sample : Nat → List Reading) (ho : o.sampler = some sampler)
    (hmarks : o.marks = true) (ht : t.Fresh)
    (hlive : (beginTelemetry o t startedNs sample).live = true) :
    Aligned sampler (beginTelemetry o t startedNs sample) startedNs ∧
      (beginTelemetry o t startedNs sample).lastRoundNs = startedNs := by
  let blank : Sampling := { enabled := true, live := true, timeline := t }
  have hbegin : beginTelemetry o t startedNs sample =
      markPhase o (takeRound o blank startedNs true sample) "run" startedNs := by
    simp [beginTelemetry, ho, blank]
  obtain ⟨hmarkLive, hrounds, hfirst, hlast, hseries⟩ :=
    markPhase_rounds o (takeRound o blank startedNs true sample) "run" startedNs
  rw [hbegin, hmarkLive] at hlive
  obtain ⟨n, hok, htake⟩ :=
    takeRound_taken o sampler ho blank startedNs true sample (by simp [roundDue, blank]) hlive
  have hblank : SampledAt blank.timeline sampler.ids [] := by
    intro index s hs
    have hempty : s.points.items = [] := ht.2 s (mem_of_getElem? hs)
    simp [Series.times, hempty]
  have hsampled := round_sampledAt sampler sample blank.timeline startedNs [] n hblank hok
  have henabled : (takeRound o blank startedNs true sample).enabled = true :=
    (takeRound_marks o blank startedNs true sample).1
  have hphases := (takeRound_marks o blank startedNs true sample).2.1
  obtain ⟨-, hmarked⟩ := markPhase_marks o _ "run" startedNs hmarks henabled
  have hfollows : t.phases.follows ⟨startedNs, "run"⟩ = true := by
    simp [Ascending.follows, ht.1]
  rw [hphases, if_pos hfollows, ht.1, nil_append] at hmarked
  rw [hbegin]
  have hlastRound : (markPhase o (takeRound o blank startedNs true sample) "run"
      startedNs).lastRoundNs = startedNs := by
    rw [hlast, htake]
    rfl
  have hfirstRound : (markPhase o (takeRound o blank startedNs true sample) "run"
      startedNs).firstRoundNs = startedNs := by
    rw [hfirst, htake]
    rfl
  refine ⟨⟨?_, ?_, ?_, Ascending.empty.push startedNs rfl, ?_, ?_, ?_, ?_⟩, hlastRound⟩
  · rw [hrounds, htake]
    simp [noteRound]
  · rw [hlastRound]
  · rw [hmarked.1, hfirstRound]
    rfl
  · intro index s hs
    rw [hseries, htake] at hs
    exact hsampled index s hs
  · rw [hfirstRound]
    rfl
  · rw [hlastRound]
    rfl
  · intro m hm
    rw [hmarked.1] at hm
    rw [mem_singleton.mp hm]
    exact mem_singleton.mpr rfl

theorem begin_roundsKept (o : RunOptions) (sampler : Sampler) (plans : List WorkerPlan)
    (t : BoundedTimeline) (startedNs : Int) (sample : Nat → List Reading)
    (ho : o.sampler = some sampler) (hmarks : o.marks = true) (ht : t.Fresh) :
    RoundsKept o sampler (begin o plans t startedNs sample) := by
  have hkept := begin_kept o plans t startedNs sample hmarks (by simp [ho]) ht
  refine ⟨hkept.enabled, ?_, ?_⟩
  · intro hlive
    exact (beginTelemetry_aligned o.toSamplingOptions sampler t startedNs sample ho hmarks ht
      hlive).1
  · intro hlive _ _ _
    exact (beginTelemetry_aligned o.toSamplingOptions sampler t startedNs sample ho hmarks ht
      hlive).2.symm

def PhasesAddUp (g : Sampling) (index : Nat) : Prop :=
  ((phaseWindows g.timeline.phases.items g.lastRoundNs).map fun p =>
      summarizedDelta g.timeline index p.window).sum =
    summarizedDelta g.timeline index (runWindow g.firstRoundNs g.lastRoundNs)

/-- Whatever the marks of a run whose rounds are kept, its phases share out what each counter
advanced by. -/
theorem aligned_sum (sampler : Sampler) (g : Sampling) (nowNs : Int)
    (hg : Aligned sampler g nowNs) (index : Nat) (series : Series)
    (hs : g.timeline.series[index]? = some series) (hk : series.metric.kind = .kCounter) :
    PhasesAddUp g index := by
  simp only [PhasesAddUp, (summarized_eq g.timeline index _ series hs hk).1]
  obtain ⟨rounds, hsampled, -, hlast, hmarks⟩ := hg.rounds
  have htimes := hsampled index series hs
  split_ifs at htimes
  · have hbegun := hg.begun
    have hasc := g.timeline.phases.ascending
    cases hp : g.timeline.phases.items with
    | nil => simp [hp] at hbegun
    | cons m ms =>
      rw [hp] at hbegun hasc hmarks
      have hm : m.startNs = g.firstRoundNs := by simpa using hbegun
      rw [← hm]
      refine (sum_movedOver_phases series hk m ms g.lastRoundNs hasc ?_).1
      intro n hn
      have hround := hmarks n (by simp [hn])
      exact ⟨by rw [htimes]; exact hround, rounds.le_getLast _ _ hround hlast⟩
  · simp only [(movedOver_empty series _ hk htimes).1, map_const', sum_replicate, nsmul_zero]

/-- When each step comes with a round and sampling stays live, the phases' advances add up to the
run's. -/
theorem phase_deltas_add_up (o : RunOptions) (sampler : Sampler) (plans : List WorkerPlan)
    (t : BoundedTimeline) (startedNs : Int) (sample : Nat → List Reading) (ticks : List Tick)
    (last : Tick) (ho : o.sampler = some sampler) (hmarks : o.marks = true) (ht : t.Fresh)
    (hsteps : Along (tick o) (RoundWithStep o) (begin o plans t startedNs sample) ticks)
    (hlive : (closeRun o (run (tick o) (begin o plans t startedNs sample) ticks)
      last).sampling.live = true)
    (index : Nat) (series : Series)
    (hs : (closeRun o (run (tick o) (begin o plans t startedNs sample) ticks)
      last).sampling.timeline.series[index]? = some series)
    (hk : series.metric.kind = .kCounter) :
    PhasesAddUp (closeRun o (run (tick o) (begin o plans t startedNs sample) ticks) last).sampling
      index := by
  have hrun := run_inv_of_along (RoundsKept o sampler)
    (fun s e hs hr => tick_roundsKept o e sampler ho hmarks s hs hr) _ ticks
    (begin_roundsKept o sampler plans t startedNs sample ho hmarks ht) hsteps
  have hclosed : AlignedRun sampler
      (closeRun o (run (tick o) (begin o plans t startedNs sample) ticks) last) :=
    round_aligned o last sampler ho _ true (readClock_aligned last sampler _ hrun.aligned)
  exact aligned_sum sampler _ _ (hclosed hlive) index series hs hk

/-- A source of one counter, and a run that samples it every thousand nanoseconds and has one
step. -/
def counterSource : Source :=
  ⟨"edac", [{ metric := { name := "edac.corrected", kind := .kCounter } }]⟩

def counterTimeline : BoundedTimeline := (probeSources { capacity := 16 } [counterSource]).1

def counterOptions : RunOptions where
  sampler := some (probeSources { capacity := 16 } [counterSource]).2
  sampleIntervalNs := 1000
  durationNs := 100000
  schedule := some {
    workers := 1, phase := "warm", workload := "integer"
    steps := [⟨500, "busy", "integer", []⟩] }

/-- The telemetry of a run of two more rounds, the step run in a tick at the first instant. -/
def counterRun (stepNs lastNs : Nat) : Sampling :=
  (closeRun counterOptions
    (run (tick counterOptions)
      (begin counterOptions [soloPlan] counterTimeline 0 fun _ => [.counter 0])
      [{ sinceNs := stepNs, elapsedNs := stepNs, sample := fun _ => [.counter 3] }])
    { sinceNs := lastNs, elapsedNs := 0, sample := fun _ => [.counter 7] }).sampling

theorem phase_deltas_of_sampled_step : PhasesAddUp (counterRun 1000 1000) 0 :=
  phase_deltas_add_up counterOptions _ [soloPlan] counterTimeline 0 (fun _ => [.counter 0])
    [{ sinceNs := 1000, elapsedNs := 1000, sample := fun _ => [.counter 3] }]
    { sinceNs := 1000, elapsedNs := 0, sample := fun _ => [.counter 7] } rfl rfl
    (probeSources_fresh [counterSource] { capacity := 16 } ⟨rfl, by simp⟩) (by decide) (by decide)
    0 _ rfl rfl

/-- A step run between two rounds: the counter's advance from one to the other is in no
phase. -/
theorem step_between_rounds_loses_delta :
    (counterRun 500 500).live = true ∧
      (counterRun 500 500).timeline.phases.items = [⟨0, "run"⟩, ⟨500, "busy"⟩] ∧
      summarizedDelta (counterRun 500 500).timeline 0
        (runWindow (counterRun 500 500).firstRoundNs (counterRun 500 500).lastRoundNs) = 7 ∧
      ((phaseWindows (counterRun 500 500).timeline.phases.items
        (counterRun 500 500).lastRoundNs).map fun p =>
          summarizedDelta (counterRun 500 500).timeline 0 p.window).sum = 0 := by
  decide

end LoadForge.Controller
