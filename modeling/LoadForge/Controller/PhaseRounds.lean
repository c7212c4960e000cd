import LoadForge.Controller.PhaseMarks

namespace LoadForge.Controller

open Framework Mixed Telemetry Worker

/-- Every round is a point of every series, and the phase marks are among the rounds. -/
structure Aligned (sampler : Sampler) (g : Sampling) (nowNs : Int) : Prop where
  taken : 0 < g.rounds
  past : g.lastRoundNs ≤ nowNs
  begun : g.timeline.phases.items.head?.map (·.startNs) = some g.firstRoundNs
  rounds : ∃ rounds : Ascending Int id, SampledAt g.timeline sampler.ids rounds.items ∧
    rounds.items.head? = some g.firstRoundNs ∧ rounds.items.getLast? = some g.lastRoundNs ∧
    ∀ m ∈ g.timeline.phases.items, m.startNs ∈ rounds.items

section Sampling

variable (o : SamplingOptions) (sampler : Sampler) (ho : o.sampler = some sampler) (g : Sampling)
  (nowNs : Int) (force : Bool) (sample : Nat → List Reading)

include ho

theorem takeRound_taken (hdue : roundDue o g nowNs force = true)
    (hlive : (takeRound o g nowNs force sample).live = true) :
    ∃ n, (sampler.round sample g.timeline nowNs).2 = .ok n ∧
      takeRound o g nowNs force sample =
        noteRound g nowNs (sampler.round sample g.timeline nowNs).1 (.ok n) := by
  have htake : takeRound o g nowNs force sample =
      noteRound g nowNs (sampler.round sample g.timeline nowNs).1
        (sampler.round sample g.timeline nowNs).2 := by
    simp [takeRound, ho, hdue]
  cases hanswer : (sampler.round sample g.timeline nowNs).2 with
  | error refusal =>
    rw [htake, hanswer] at hlive
    simp [noteRound] at hlive
  | ok n => exact ⟨n, rfl, by rw [htake, hanswer]⟩

theorem takeRound_skipped (hdue : ¬roundDue o g nowNs force = true) :
    takeRound o g nowNs force sample = g := by
  simp [takeRound, ho, hdue]

theorem takeRound_live
    (hlive : (takeRound o g nowNs force sample).live = true) : g.live = true := by
  by_cases hdue : roundDue o g nowNs force = true
  · simp only [roundDue, Bool.and_eq_true] at hdue
    exact hdue.1.1
  · rwa [takeRound_skipped o sampler ho g nowNs force sample hdue] at hlive

theorem takeRound_aligned (hg : Aligned sampler g nowNs)
    (hlive : (takeRound o g nowNs force sample).live = true) :
    Aligned sampler (takeRound o g nowNs force sample) nowNs := by
  by_cases hdue : roundDue o g nowNs force = true
  · obtain ⟨n, hok, htake⟩ := takeRound_taken o sampler ho g nowNs force sample hdue hlive
    obtain ⟨rounds, hsampled, hhead, hlast, hmarks⟩ := hg.rounds
    have hlater : g.lastRoundNs < nowNs := by
      simp only [roundDue, Bool.and_eq_true, Bool.not_eq_true', Bool.and_eq_false_imp,
        decide_eq_true_eq, decide_eq_false_iff_not] at hdue
      have := hdue.1.2 hg.taken
      omega
    have hfollows : rounds.follows nowNs = true := by
      simpa [Ascending.follows, hlast] using hlater
    have hphases := round_phases sampler sample g.timeline nowNs
    rw [htake]
    refine ⟨?_, ?_, ?_, rounds.push nowNs hfollows, ?_, ?_, ?_, ?_⟩
    · simp [noteRound]
    · simp [noteRound]
    · simpa [noteRound, hphases, hg.taken] using hg.begun
    · exact round_sampledAt sampler sample g.timeline nowNs rounds.items n hsampled hok
    · simp [noteRound, hg.taken, List.head?_append, hhead]
    · simp [noteRound]
    · intro m hm
      simp only [noteRound, hphases] at hm
      simp [hmarks m hm]
  · rwa [takeRound_skipped o sampler ho g nowNs force sample hdue]

theorem takeRound_forced (g : Sampling) (nowNs : Int) (sample : Nat → List Reading)
    (hg : Aligned sampler g nowNs) (hlive : (takeRound o g nowNs true sample).live = true) :
    (takeRound o g nowNs true sample).lastRoundNs = nowNs := by
  by_cases hdue : roundDue o g nowNs true = true
  · obtain ⟨n, -, htake⟩ := takeRound_taken o sampler ho g nowNs true sample hdue hlive
    rw [htake]
    rfl
  · have hbefore := takeRound_live o sampler ho g nowNs true sample hlive
    rw [takeRound_skipped o sampler ho g nowNs true sample hdue]
    have hpast := hg.past
    simp [roundDue, hbefore, hg.taken] at hdue
    omega

omit ho

section

variable (g : Sampling) (label : String) (nowNs : Int)

theorem markPhase_rounds :
    (markPhase o g label nowNs).live = g.live ∧ (markPhase o g label nowNs).rounds = g.rounds ∧
      (markPhase o g label nowNs).firstRoundNs = g.firstRoundNs ∧
      (markPhase o g label nowNs).lastRoundNs = g.lastRoundNs ∧
      (markPhase o g label nowNs).timeline.series = g.timeline.series := by
  unfold markPhase
  split_ifs
  · exact ⟨rfl, rfl, rfl, rfl, rfl⟩
  · cases hm : g.timeline.markPhase ⟨nowNs, label⟩ with
    | error fault => exact ⟨rfl, rfl, rfl, rfl, rfl⟩
    | ok t =>
      unfold BoundedTimeline.markPhase at hm
      split_ifs at hm
      cases hm
      exact ⟨rfl, rfl, rfl, rfl, rfl⟩

theorem markPhase_phases :
    (markPhase o g label nowNs).timeline.phases.items = g.timeline.phases.items ∨
      (markPhase o g label nowNs).timeline.phases.items =
        g.timeline.phases.items ++ [⟨nowNs, label⟩] := by
  unfold markPhase BoundedTimeline.markPhase
  by_cases hf : g.timeline.phases.follows ⟨nowNs, label⟩ = true
  · by_cases hoff : (!g.enabled || !o.marks) = true
    · simp [hoff]
    · simp [hoff, hf]
  · by_cases hoff : (!g.enabled || !o.marks) = true
    · simp [hoff]
    · simp [hoff, hf]

theorem markPhase_aligned (hg : Aligned sampler g nowNs) (hlast : g.lastRoundNs = nowNs) :
    Aligned sampler (markPhase o g label nowNs) nowNs := by
  obtain ⟨-, hrounds, hfirst, hlastRound, hseries⟩ := markPhase_rounds o g label nowNs
  obtain ⟨rounds, hsampled, hhead, hend, hmarks⟩ := hg.rounds
  have hnow : nowNs ∈ rounds.items := by
    rw [← hlast]
    exact List.mem_of_getLast? hend
  have hsampled' : SampledAt (markPhase o g label nowNs).timeline sampler.ids rounds.items := by
    intro index s hs
    rw [hseries] at hs
    exact hsampled index s hs
  refine ⟨by rw [hrounds]; exact hg.taken, by rw [hlastRound]; exact hg.past, ?_,
    rounds, hsampled', by rw [hfirst]; exact hhead, by rw [hlastRound]; exact hend, ?_⟩
  · rw [hfirst]
    rcases markPhase_phases o g label nowNs with hsame | hmore
    · rw [hsame]
      exact hg.begun
    · rw [hmore]
      have hbegun := hg.begun
      cases hp : g.timeline.phases.items with
      | nil => simp [hp] at hbegun
      | cons m ms => simpa [hp] using hbegun
  · intro m hm
    rcases markPhase_phases o g label nowNs with hsame | hmore
    · rw [hsame] at hm
      exact hmarks m hm
    · rw [hmore] at hm
      rcases List.mem_append.mp hm with hm | hm
      · exact hmarks m hm
      · rw [List.mem_singleton.mp hm]
        exact hnow

end

end Sampling

/-- While it samples, a run's marks are among its rounds. -/
def AlignedRun (sampler : Sampler) (s : RunState) : Prop :=
  s.sampling.live = true → Aligned sampler s.sampling s.clockRunningNs

/-- While it samples, a run has a round at this instant. -/
def RoundNow (s : RunState) : Prop :=
  s.sampling.live = true → s.sampling.lastRoundNs = s.clockRunningNs

section Tick

variable (o : RunOptions) (e : Tick) (sampler : Sampler)

theorem readClock_aligned (s : RunState) (hs : AlignedRun sampler s) :
    AlignedRun sampler (s.readClock e) := by
  intro hlive
  obtain ⟨htaken, hpast, hbegun, hrounds⟩ := hs hlive
  refine ⟨htaken, ?_, hbegun, hrounds⟩
  simp only [RunState.readClock]
  omega

theorem mark_aligned (s : RunState) (label : String) (hs : AlignedRun sampler s)
    (hnow : RoundNow s) : AlignedRun sampler (mark o s label) := by
  intro hlive
  have hbefore : s.sampling.live = true := by
    rw [← (markPhase_rounds o.toSamplingOptions s.sampling label s.clockRunningNs).1]
    exact hlive
  exact markPhase_aligned o.toSamplingOptions sampler s.sampling label s.clockRunningNs
    (hs hbefore) (hnow hbefore)

theorem mark_roundNow (s : RunState) (label : String) (hnow : RoundNow s) :
    RoundNow (mark o s label) := by
  obtain ⟨hlive, -, -, hlast, -⟩ :=
    markPhase_rounds o.toSamplingOptions s.sampling label s.clockRunningNs
  intro hl
  simp only [mark] at hl ⊢
  rw [hlast]
  exact hnow (hlive ▸ hl)

variable (ho : o.sampler = some sampler)

include ho

theorem round_aligned (s : RunState) (force : Bool) (hs : AlignedRun sampler s) :
    AlignedRun sampler (round o s force e) := by
  intro hlive
  have hbefore := takeRound_live o.toSamplingOptions sampler ho _ _ _ _ hlive
  exact takeRound_aligned o.toSamplingOptions sampler ho s.sampling s.clockRunningNs force e.sample
    (hs hbefore) hlive

section

variable (s : RunState) (hs : AlignedRun sampler s)
include hs

theorem round_forced_now : RoundNow (round o s true e) := by
  intro hlive
  have hbefore := takeRound_live o.toSamplingOptions sampler ho _ _ _ _ hlive
  exact takeRound_forced o.toSamplingOptions sampler ho s.sampling s.clockRunningNs e.sample
    (hs hbefore) hlive

theorem stop_aligned : AlignedRun sampler (requestStop o (mark o (round o s true e) "stop") e) :=
  mark_aligned o sampler (round o s true e) "stop" (round_aligned o e sampler ho s true hs)
    (round_forced_now o e sampler ho s hs)

theorem stopAtDeadline_aligned : AlignedRun sampler (stopAtDeadline o s e) := by
  unfold stopAtDeadline
  split_ifs
  · exact stop_aligned o e sampler ho s hs
  · exact hs

end

theorem takeStopSignals_aligned (signals : List Int) (s : RunState) (hs : AlignedRun sampler s) :
    AlignedRun sampler (takeStopSignals o e s signals) := by
  induction signals generalizing s with
  | nil => exact hs
  | cons signal rest ih =>
    refine ih _ ?_
    split_ifs
    · exact hs
    · unfold stopForSignal
      split_ifs
      · exact hs
      · exact stop_aligned o e sampler ho (s.noteSignal signal) hs

omit ho

theorem stopForTemperature_aligned (s : RunState) (stop : TemperatureStop)
    (hs : AlignedRun sampler s) (hnow : s.stopRequested = false → RoundNow s) :
    AlignedRun sampler (stopForTemperature o s stop e) := by
  unfold stopForTemperature
  split_ifs with hstop
  · exact hs
  · exact mark_aligned o sampler (s.noteHeat stop) "stop" hs (hnow (by simpa using hstop))

theorem runSteps_aligned (steps : List Step) (s : RunState) (hs : AlignedRun sampler s)
    (hnow : steps.takeWhile (fun step => step.atNs ≤ e.elapsedNs) ≠ [] → RoundNow s) :
    AlignedRun sampler (runSteps o e s steps) := by
  induction steps generalizing s with
  | nil => exact hs
  | cons step rest ih =>
    unfold runSteps
    split_ifs with hdue
    · have hround : RoundNow s := hnow (by simp [hdue])
      obtain ⟨es, hes⟩ := runStep_happens o e s step
      rw [hes]
      refine ih _ ?_ ?_
      · exact mark_aligned o sampler s.countStep step.phase hs hround
      · intro _
        exact mark_roundNow o s.countStep step.phase hround
    · exact hs

theorem runSchedule_aligned (s : RunState) (hs : AlignedRun sampler s)
    (hnow : s.stopRequested = false →
      (o.steps.drop s.nextStep).takeWhile (fun step => step.atNs ≤ e.elapsedNs) ≠ [] →
        RoundNow s) :
    AlignedRun sampler (runSchedule o s e) := by
  unfold runSchedule
  cases hschedule : o.schedule with
  | none => exact hs
  | some schedule =>
    have hsteps : o.steps = schedule.steps := by simp [RunOptions.steps, hschedule]
    simp only
    split_ifs with hstop
    · exact hs
    · refine runSteps_aligned o e sampler _ s hs ?_
      rw [← hsteps]
      exact hnow (by simpa using hstop)

theorem enforceTemperature_aligned (s : RunState) (hs : AlignedRun sampler s)
    (hnow : s.stopRequested = false → o.ceilingC.isSome = true → s.temperatureStop = none →
      s.sampling.lastRoundNs ≠ s.temperatureCheckedNs → RoundNow s) :
    AlignedRun sampler (enforceTemperature o s e) := by
  unfold enforceTemperature
  cases hceiling : o.ceilingC with
  | none => exact hs
  | some ceiling =>
    cases hheat : s.temperatureStop with
    | some stop => exact hs
    | none =>
      simp only
      split_ifs with hlive hchecked
      · refine stopForTemperature_aligned o e sampler s _ hs ?_
        intro _ hl
        simp [hl] at hlive
      · exact hs
      · cases e.observed with
        | none => exact hs
        | some stop =>
          refine stopForTemperature_aligned o e sampler s.noteChecked stop hs ?_
          intro hstop
          exact hnow hstop (by simp [hceiling]) hheat hchecked

end Tick

/-- A run that is not being stopped has judged its last round against its ceiling. -/
def Judged (o : RunOptions) (s : RunState) : Prop :=
  s.sampling.live = true → s.stopRequested = false → s.temperatureStop = none →
    o.ceilingC.isSome = true → s.temperatureCheckedNs = s.sampling.lastRoundNs

section Judged

variable (o : RunOptions) (e : Tick)

theorem judged_of_stopped (s : RunState) (hs : s.stopRequested = true) : Judged o s := by
  intro _ hstop
  rw [hs] at hstop
  cases hstop

theorem stopForTemperature_judged (s : RunState) (stop : TemperatureStop) :
    Judged o (stopForTemperature o s stop e) := by
  refine judged_of_stopped o _ ?_
  unfold stopForTemperature
  split_ifs with hstop
  · exact hstop
  · rfl

theorem enforceTemperature_judged (s : RunState) : Judged o (enforceTemperature o s e) := by
  unfold enforceTemperature
  cases hceiling : o.ceilingC with
  | none =>
    intro _ _ _ hsome
    simp [hceiling] at hsome
  | some ceiling =>
    cases hheat : s.temperatureStop with
    | some stop =>
      intro _ _ hnone
      simp [hheat] at hnone
    | none =>
      simp only
      split_ifs with hlive hchecked
      · exact stopForTemperature_judged o e s _
      · intro _ _ _ _
        exact hchecked.symm
      · cases e.observed with
        | none =>
          intro _ _ _ _
          rfl
        | some stop => exact stopForTemperature_judged o e s.noteChecked stop

theorem mark_judged (s : RunState) (label : String) (hs : Judged o s) :
    Judged o (mark o s label) := by
  obtain ⟨hlive, -, -, hlast, -⟩ :=
    markPhase_rounds o.toSamplingOptions s.sampling label s.clockRunningNs
  intro hl hstop hheat hceiling
  simp only [mark] at hl ⊢
  rw [hlast]
  exact hs (hlive ▸ hl) hstop hheat hceiling

theorem runSteps_judged (steps : List Step) (s : RunState) (hs : Judged o s) :
    Judged o (runSteps o e s steps) := by
  induction steps generalizing s with
  | nil => exact hs
  | cons step rest ih =>
    unfold runSteps
    split_ifs
    · obtain ⟨es, hes⟩ := runStep_happens o e s step
      rw [hes]
      exact ih _ (mark_judged o s.countStep step.phase hs)
    · exact hs

theorem runSchedule_judged (s : RunState) (hs : Judged o s) : Judged o (runSchedule o s e) := by
  unfold runSchedule
  split
  · exact hs
  · split_ifs
    · exact hs
    · exact runSteps_judged o e _ s hs

theorem takeStopSignals_judged (signals : List Int) (s : RunState) (hs : Judged o s) :
    Judged o (takeStopSignals o e s signals) := by
  induction signals generalizing s with
  | nil => exact hs
  | cons signal rest ih =>
    refine ih _ ?_
    split_ifs
    · exact hs
    · unfold stopForSignal
      split_ifs
      · exact hs
      · exact judged_of_stopped o _ rfl

end Judged

end LoadForge.Controller
