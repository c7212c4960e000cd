import LoadForge.Workloads.CyclingReplay

namespace LoadForge.Mixed

open Framework Worker Workloads List WorkerCommands

section Facts

variable {options : CyclingOptions} {schedule : Schedule}

section

variable {level : Nat} {step : Step} (h : Reaches options level step)
include h

theorem Reaches.told {each : WorkerCommands} (heach : each ∈ step.workers) :
    each.slot < options.workers ∧ each.commands = (toldAt options level each.slot).1 := by
  rw [h.workers, tellAll, mem_filterMap] at heach
  obtain ⟨told, htold, hsome⟩ := heach
  obtain ⟨slot, hslot, rfl⟩ := mem_map.mp htold
  split_ifs at hsome
  cases hsome
  exact ⟨mem_range.mp hslot, rfl⟩

omit h in
theorem tellAll_flatMap (told : List (Nat × List Command × State)) :
    (tellAll told).flatMap commands = told.flatMap fun each => each.2.1 := by
  induction told with
  | nil => rfl
  | cons each told ih =>
    rw [flatMap_cons, ← ih, tellAll, filterMap_cons]
    cases each.2.1 <;> rfl

theorem Reaches.length_le (hallowed : Allowed options) :
    (step.workers.flatMap commands).length ≤ options.workers := by
  have hlength : ((range options.workers).flatMap fun slot =>
      (toldAt options level slot).1).length ≤ (range options.workers).length * 1 := by
    apply length_flatMap_le
    intro slot _
    exact (hallowed.brings level slot).single
  rw [length_range, Nat.mul_one] at hlength
  rw [h.workers, tellAll_flatMap, flatMap_map]
  exact hlength

omit h in
theorem Cycles.commands (h : Cycles options schedule) (hallowed : Allowed options) :
    (schedule.steps.flatMap fun step => step.workers.flatMap commands).length ≤
      kMaxCommands := by
  have hlength := h.steps.length_eq
  rw [length_range] at hlength
  calc
    _ ≤ schedule.steps.length * options.workers := by
      apply length_flatMap_le
      intro step hstep
      obtain ⟨level, -, hreaches⟩ := forall₂_mem h.steps hstep
      exact hreaches.length_le hallowed
    _ = options.workers * (fitting options.durationNs options.dwellNs + 1) := by
      rw [← hlength, Nat.mul_comm]
    _ ≤ kMaxCommands := hallowed.commands

omit h in
theorem Cycles.times (h : Cycles options schedule) (hallowed : Allowed options) {step : Step}
    (hstep : step ∈ schedule.steps) :
    0 ≤ step.atNs ∧ step.atNs < options.durationNs.toInt := by
  obtain ⟨level, hlevel, hreaches⟩ := forall₂_mem h.steps hstep
  rw [hreaches.atNs]
  constructor
  · exact Int.mul_nonneg (Int.natCast_nonneg _) (Int.le_of_lt hallowed.dwell)
  · apply (le_fitting_iff hallowed.duration hallowed.dwell).mp
    exact Nat.lt_succ_iff.mp (mem_range.mp hlevel)

omit h in
theorem labelTooLong_cyclingWorkload (options : CyclingOptions) :
    labelTooLong (cyclingWorkload options) = false := by
  unfold cyclingWorkload
  cases options.kind <;> decide +kernel

theorem Reaches.rules (hallowed : Allowed options) : StepRules options.workers step := by
  refine ⟨⟨h.phase.short (by decide), h.workload ▸ labelTooLong_cyclingWorkload options⟩, ?_, ?_⟩
  · intro each heach
    exact (h.told heach).1
  · intro each heach command hcommand
    rw [(h.told heach).2] at hcommand
    exact ((hallowed.brings level each.slot).loads command hcommand).2

end

theorem Cycles.phases (h : Cycles options schedule) : (schedule.steps.map Step.phase).Nodup := by
  have hlabels : List.Forall₂ (IsNumbered "c")
      (range (fitting options.durationNs options.dwellNs + 1))
      (schedule.steps.map Step.phase) := by
    rw [List.forall₂_map_right_iff]
    exact h.steps.imp fun _ _ hstep => hstep.phase
  exact nodup_of_numbered hlabels nodup_range

theorem Cycles.rules (h : Cycles options schedule) (hallowed : Allowed options) :
    Rules schedule options.workers where
  workers_eq := h.workers
  start_each := Or.inl h.start
  start_valid := by
    rw [h.start]
    exact nofun
  labels := by
    rw [h.phase, h.workload]
    exact ⟨by decide +kernel, labelTooLong_cyclingWorkload options⟩
  phases := h.phases
  times := by
    have hatNs : schedule.steps.map Step.atNs =
        (range (fitting options.durationNs options.dwellNs + 1)).map fun level : Nat =>
          (level : Int) * options.dwellNs.toInt :=
      forall₂_map _ _ h.steps fun _ _ hstep => hstep.atNs
    rw [pairwise_cons]
    constructor
    · intro t ht
      obtain ⟨step, hstep, rfl⟩ := mem_map.mp ht
      exact (h.times hallowed hstep).1
    · rw [hatNs, pairwise_map]
      apply pairwise_le_range.imp
      intro level level' hle
      exact Int.mul_le_mul_of_nonneg_right (Int.ofNat_le.mpr hle) (Int.le_of_lt hallowed.dwell)
  steps := by
    intro step hstep
    obtain ⟨level, -, hreaches⟩ := forall₂_mem h.steps hstep
    exact hreaches.rules hallowed

theorem makeCycling_cases (options : CyclingOptions) :
    (∃ refused, makeCycling options = some (.error refused)) ∨
      Allowed options ∧ ∃ schedule, makeCycling options = some (.ok schedule) ∧
        Cycles options schedule := by
  by_cases hworkers : options.workers = 0
  · exact Or.inl ⟨_, if_pos hworkers⟩
  by_cases hpositive : options.durationNs.toInt ≤ 0 ∨ options.dwellNs.toInt ≤ 0 ∨
      options.periodNs.toInt ≤ 0
  · rw [makeCycling, if_neg hworkers, if_pos hpositive]
    exact Or.inl ⟨_, rfl⟩
  have hduration : 0 < options.durationNs.toInt := by omega
  have hdwell : 0 < options.dwellNs.toInt := by omega
  have hlevels : levelsOf options = some (fitting options.durationNs options.dwellNs + 1) := by
    have hlt := fitting_lt hduration hdwell
    rw [levelsOf, intervalsIn_eq hduration hdwell, Option.map_some, Nat.mod_eq_of_lt (by omega)]
  rw [makeCycling, if_neg hworkers, if_neg hpositive, hlevels, Option.bind_eq_bind,
    Option.bind_some]
  by_cases hsteps : kMaxSteps < fitting options.durationNs options.dwellNs + 1
  · rw [if_pos hsteps]
    exact Or.inl ⟨_, rfl⟩
  by_cases hcommands : kMaxCommands / (fitting options.durationNs options.dwellNs + 1) <
      options.workers
  · rw [if_neg hsteps, if_pos hcommands]
    exact Or.inl ⟨_, rfl⟩
  have hallowed : Allowed options := by
    refine ⟨Nat.pos_of_ne_zero hworkers, hduration, hdwell, by omega, Nat.le_of_not_lt hsteps, ?_⟩
    exact (Nat.le_div_iff_mul_le (Nat.succ_pos _)).mp (Nat.le_of_not_lt hcommands)
  obtain ⟨⟨steps, states⟩, hloop, hreaches⟩ := levels_spec hallowed
  refine Or.inr ⟨hallowed, ⟨options.workers, [], "run", cyclingWorkload options, steps⟩, ?_,
    rfl, rfl, rfl, rfl, hreaches⟩
  rw [if_neg hsteps, if_neg hcommands, hloop]
  rfl

end Facts

/-- The messages of the first steps reach a worker that runs at full load. -/
structure Replay (schedule : Schedule) (slot steps : Nat) (t : Ticker)
    (messages : List (ControlMessage × Int)) : Prop where
  running : t.paused = false
  busy : t.duty.duty.busyPermille = 1000
  commands : (messages.map fun each => each.1.command) =
    commandsTo slot (schedule.steps.take steps)

/-- A worker pauses at a level of nothing, and else is as busy as the level says. -/
def Obeys (options : CyclingOptions) (level slot : Nat) (t : Ticker) : Prop :=
  (t.paused = true ↔ wantedAt options level slot = 0) ∧
    (wantedAt options level slot ≠ 0 → t.duty.duty.busyPermille = wantedAt options level slot)

/-- There is a step for each level that begins in the time, at its time, and each worker does after
it what the level says, as its own loop handles the messages. -/
structure Drives (options : CyclingOptions) (schedule : Schedule) : Prop where
  levels : ∀ level : Nat, level < schedule.steps.length ↔
    level * options.dwellNs.toInt < options.durationNs.toInt
  dwells : ∀ (level : Nat) step, schedule.steps[level]? = some step →
    step.atNs = level * options.dwellNs.toInt
  accepted : problem schedule options.workers = none
  commands : (schedule.steps.flatMap fun step =>
    step.workers.flatMap WorkerCommands.commands).length ≤ kMaxCommands
  times : ∀ step ∈ schedule.steps, 0 ≤ step.atNs ∧ step.atNs < options.durationNs.toInt
  single : ∀ step ∈ schedule.steps, ∀ slot < options.workers, (commandsTo slot [step]).length ≤ 1
  reached : ∀ w t level slot messages, level < schedule.steps.length → slot < options.workers →
    Replay schedule slot (level + 1) t messages →
    Obeys options level slot (Ticker.given w t messages)
  changes : ∀ w t level step slot messages message nowNs,
    schedule.steps[level]? = some step → slot < options.workers →
    Replay schedule slot level t messages → message.command ∈ commandsTo slot [step] →
    stateOf ((Ticker.given w t messages).handle w message nowNs).ticker ≠
      stateOf (Ticker.given w t messages)
  cores : options.kind = .kCores → ∀ level < schedule.steps.length,
    workingAt options level ≤ options.workers ∧
      ∀ w t slot messages, slot < options.workers → Replay schedule slot (level + 1) t messages →
        ((Ticker.given w t messages).paused = false ↔ slot < workingAt options level)

section Driven

variable {options : CyclingOptions} {schedule : Schedule} (h : Cycles options schedule)
  (hallowed : Allowed options) (w : Services) {t : Ticker} {level slot : Nat}
  {messages : List (ControlMessage × Int)} (hslot : slot < options.workers)
include h hallowed hslot

theorem Cycles.given (hlevel : level ≤ schedule.steps.length)
    (hreplay : Replay schedule slot level t messages) :
    stateOf (Ticker.given w t messages) = stateAfter (wantedBefore options level slot) := by
  have hstart : stateOf t = {} := by rw [stateOf, hreplay.running, hreplay.busy]
  have hloads : ∀ each ∈ messages, ChangesLoad each.1.command := by
    intro each heach
    apply h.loads hallowed hslot level
    rw [← hreplay.commands]
    exact mem_map_of_mem heach
  rw [stateOf_given w t messages hloads, hreplay.commands, hstart]
  exact h.replayed hallowed hslot level hlevel

theorem Cycles.obeys (hlevel : level < schedule.steps.length)
    (hreplay : Replay schedule slot (level + 1) t messages) :
    Obeys options level slot (Ticker.given w t messages) := by
  have hstate := h.given hallowed w hslot hlevel hreplay
  have hwanted : wantedBefore options (level + 1) slot = wantedAt options level slot := rfl
  rw [hwanted, stateAfter] at hstate
  split_ifs at hstate with hzero
  · have hpaused := congrArg State.paused hstate
    exact ⟨iff_of_true hpaused hzero, fun hne => absurd hzero hne⟩
  · have hpaused := congrArg State.paused hstate
    have hrunning : ¬ (Ticker.given w t messages).paused = true := by
      intro hstill
      exact Bool.false_ne_true (hpaused.symm.trans hstill)
    exact ⟨iff_of_false hrunning hzero, fun _ => congrArg State.busyPermille hstate⟩

omit hslot in
theorem Cycles.drives : Drives options schedule := by
  refine ⟨?_, fun level step hstep => (h.at hstep).atNs, problem_eq_none (h.rules hallowed),
    h.commands hallowed, fun step => h.times hallowed, ?_, ?_, ?_, ?_⟩
  · intro level
    rw [← h.steps.length_eq, length_range, Nat.lt_succ_iff]
    exact le_fitting_iff hallowed.duration hallowed.dwell
  · intro step hstep slot hslot
    obtain ⟨level, -, hreaches⟩ := forall₂_mem h.steps hstep
    rw [hreaches.commandsTo_eq hslot]
    exact (hallowed.brings level slot).single
  · intro w t level slot messages hlevel hslot hreplay
    exact h.obeys hallowed w hslot hlevel hreplay
  · intro w t level step slot messages message nowNs hstep hslot hreplay hcommand
    have hlevel := Nat.le_of_lt (List.getElem?_eq_some_iff.mp hstep).1
    rw [(h.at hstep).commandsTo_eq hslot] at hcommand
    have hload := ((hallowed.brings level slot).loads _ hcommand).1
    rw [stateOf_handle w _ message nowNs hload, h.given hallowed w hslot hlevel hreplay]
    exact (hallowed.brings level slot).changes _ hcommand
  · intro hkind level hlevel
    refine ⟨workingAt_le hallowed.workers level, ?_⟩
    intro w t slot messages hslot hreplay
    rw [← Bool.not_eq_true, (h.obeys hallowed w hslot hlevel hreplay).1, wantedAt, hkind]
    dsimp only
    split_ifs with hworks
    · exact iff_of_true (by decide) hworks
    · exact iff_of_false (by decide) hworks

end Driven

/-- A schedule is made or refused, and one that is made drives the workers through its levels. -/
theorem cycling_schedules_drive_the_workers (options : CyclingOptions) :
    ∃ answer, makeCycling options = some answer ∧
      ∀ schedule, answer = .ok schedule → Drives options schedule := by
  obtain ⟨refused, hrefused⟩ | ⟨hallowed, schedule, hmade, hcycles⟩ := makeCycling_cases options
  · exact ⟨.error refused, hrefused, nofun⟩
  · refine ⟨.ok schedule, hmade, ?_⟩
    intro other hother
    cases hother
    exact hcycles.drives hallowed

example : (makeCycling { kind := .kCores, workers := 3, durationNs := 9, dwellNs := 2 }).map
    Except.isOk = some true := by decide +kernel

end LoadForge.Mixed
