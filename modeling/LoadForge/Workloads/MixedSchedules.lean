import Mathlib.Data.Nat.ModEq
import LoadForge.Controller.Plan
import LoadForge.Workloads.MixedRules

namespace LoadForge.Mixed

open Framework Worker Workloads List

section Facts

variable {roster : List RosterEntry} {options : MixedOptions} {schedule : Schedule}

def IsMove (step : Step) : Prop :=
  ∃ each ∈ step.workers, ∃ cpus, Command.rebind cpus ∈ each.commands

section

variable {rotation : Nat} {step : Step} (h : Follows roster options rotation step)
include h

theorem Follows.told {each : WorkerCommands} (heach : each ∈ step.workers) :
    ∃ slot command, slot < options.workers ∧ each = ⟨slot, [command]⟩ ∧
      Told roster options rotation slot command := by
  obtain ⟨slot, hslot, command, hsame, htold⟩ := forall₂_mem h.workers heach
  exact ⟨slot, command, mem_range.mp hslot, hsame, htold⟩

theorem Follows.isMove_iff
    (hworkers : 0 < options.workers) : IsMove step ↔ movesAt options rotation = true := by
  constructor
  · intro hmove
    obtain ⟨each, heach, cpus, hcpus⟩ := hmove
    obtain ⟨slot, command, -, rfl, htold⟩ := h.told heach
    obtain rfl := mem_singleton.mp hcpus
    exact htold.1
  · intro hmoves
    have hlength := h.workers.length_eq
    rw [length_range] at hlength
    obtain ⟨each, heach⟩ := exists_mem_of_length_pos (hlength ▸ hworkers)
    obtain ⟨slot, command, -, rfl, htold⟩ := h.told heach
    cases command with
    | rebind cpus => exact ⟨_, heach, cpus, mem_singleton_self _⟩
    | switch change =>
      rw [htold.1] at hmoves
      cases hmoves
    | _ => exact htold.elim

theorem Follows.rules (hadmitted : Admitted options)
    (hroster : ∀ entry ∈ roster, isValidName entry.name = true ∧ 0 < entry.minFootprintBytes) :
    StepRules options.workers step := by
  refine ⟨⟨h.phase.short (by decide), h.workload⟩, ?_, ?_⟩
  · intro each heach
    obtain ⟨slot, command, hslot, rfl, -⟩ := h.told heach
    exact hslot
  · intro each heach command hcommand
    obtain ⟨slot, command', -, rfl, htold⟩ := h.told heach
    obtain rfl := mem_singleton.mp hcommand
    cases command with
    | rebind cpus => exact hadmitted.cpus cpus (mem_of_getElem? htold.2)
    | switch change =>
      obtain ⟨entry, hentry, hname, hmin, -⟩ := htold.2
      obtain ⟨hvalid, hpos⟩ := hroster entry hentry
      rw [isValid, ← hname, hvalid, Bool.true_and]
      exact decide_eq_true (UInt64.lt_of_lt_of_le hpos hmin)
    | _ => exact htold.elim

end

section

variable (h : Made roster options schedule)
include h

theorem Made.atNs :
    schedule.steps.map Step.atNs = (range' 1 (turns options)).map fun rotation : Nat =>
      (rotation : Int) * options.rotationNs.toInt :=
  forall₂_map _ _ h.steps fun _ _ hstep => hstep.atNs

theorem Made.times (hadmitted : Admitted options) (t : Int) :
    (∃ step ∈ schedule.steps, step.atNs = t) ↔
      0 < t ∧ t < options.durationNs.toInt ∧ options.rotationNs.toInt ∣ t := by
  have hrotation := hadmitted.rotation
  have hmem : (∃ step ∈ schedule.steps, step.atNs = t) ↔
      t ∈ schedule.steps.map Step.atNs := mem_map.symm
  rw [hmem, h.atNs, mem_map]
  constructor
  · intro hexists
    obtain ⟨rotation, hrange, rfl⟩ := hexists
    obtain ⟨hlow, hhigh⟩ := mem_range'_1.mp hrange
    have hle : rotation ≤ turns options := by omega
    exact ⟨Int.mul_pos (by omega) hrotation, (le_fitting_iff hadmitted.duration hrotation).mp hle,
      Int.dvd_mul_left _ _⟩
  · intro hinside
    obtain ⟨hpos, hlt, k, rfl⟩ := hinside
    have hk : 0 < k := Int.pos_of_mul_pos_right hpos hrotation
    have hnat : (k.toNat : Int) = k := Int.toNat_of_nonneg (Int.le_of_lt hk)
    have hle : k.toNat ≤ turns options := by
      apply (le_fitting_iff hadmitted.duration hrotation).mpr
      rw [hnat, Int.mul_comm]
      exact hlt
    refine ⟨k.toNat, mem_range'_1.mpr ⟨by omega, by omega⟩, ?_⟩
    rw [hnat, Int.mul_comm]

theorem Made.increasing (hadmitted : Admitted options) :
    (schedule.steps.map Step.atNs).Pairwise (· < ·) := by
  rw [h.atNs, pairwise_map]
  apply (pairwise_lt_range' 1).imp
  intro rotation rotation' hlt
  exact Int.mul_lt_mul_of_pos_right (Int.ofNat_lt.mpr hlt) hadmitted.rotation

theorem Made.phases : (schedule.phase :: schedule.steps.map Step.phase).Nodup := by
  have hlabels : Forall₂ (IsNumbered "r") (0 :: range' 1 (turns options))
      (schedule.phase :: schedule.steps.map Step.phase) := by
    refine Forall₂.cons ?_ (List.forall₂_map_right_iff.mpr ?_)
    · rw [h.phase]
      exact phaseOf_numbered (Nat.zero_le _) .kMixed
    · exact h.steps.imp fun _ _ hstep => hstep.phase
  have hnumbers : (range' 0 (turns options + 1)).Nodup := nodup_range' 1
  exact nodup_of_numbered hlabels hnumbers

theorem Made.rules (hadmitted : Admitted options)
    (hroster : ∀ entry ∈ roster, isValidName entry.name = true ∧ 0 < entry.minFootprintBytes) :
    Rules schedule options.workers where
  workers_eq := h.workers
  start_each := Or.inr (by rw [← h.start.length_eq, length_range])
  start_valid := by
    intro start hstart
    obtain ⟨-, -, entry, hentry, hname, hmin, -⟩ := forall₂_mem h.start hstart
    obtain ⟨hvalid, hpos⟩ := hroster entry hentry
    refine ⟨hname ▸ hvalid, ?_⟩
    intro hzero
    rw [hzero] at hmin
    exact absurd (UInt64.lt_of_lt_of_le hpos hmin) (UInt64.lt_irrefl 0)
  labels := by
    rw [h.phase]
    exact ⟨(phaseOf_numbered (Nat.zero_le _) .kMixed).short (by decide), h.workload⟩
  phases := (nodup_cons.mp (h.phases)).2
  times := by
    rw [pairwise_cons]
    constructor
    · intro t ht
      exact Int.le_of_lt ((h.times hadmitted t).mp (mem_map.mp ht)).1
    · exact (h.increasing hadmitted).imp Int.le_of_lt
  steps := by
    intro step hstep
    obtain ⟨rotation, -, hfollows⟩ := forall₂_mem h.steps hstep
    exact hfollows.rules hadmitted hroster

end

theorem Follows.oneEach {rotation : Nat} {step : Step} (h : Follows roster options rotation step) :
    (step.workers.map fun each => (each.slot, each.commands.length)) =
      (List.range options.workers).map fun slot => (slot, 1) := by
  apply forall₂_map _ _ h.workers
  intro slot each htold
  obtain ⟨command, rfl, -⟩ := htold
  rfl

theorem Made.commands (h : Made roster options schedule) :
    (schedule.steps.flatMap fun step => step.workers.flatMap WorkerCommands.commands).length ≤
      turns options * options.workers := by
  have hturns := h.steps.length_eq
  rw [length_range'] at hturns
  rw [hturns]
  apply length_flatMap_le
  intro step hstep
  obtain ⟨rotation, -, hfollows⟩ := forall₂_mem h.steps hstep
  have hworkers := hfollows.workers.length_eq
  rw [length_range] at hworkers
  rw [hworkers, ← Nat.mul_one step.workers.length]
  apply length_flatMap_le
  intro each heach
  obtain ⟨slot, command, -, rfl, -⟩ := hfollows.told heach
  exact Nat.le_refl 1

theorem existsUnique_rotated {n : Nat} (turn : Nat) {position : Nat} (h : position < n) :
    ∃! slot, slot < n ∧ (slot + turn) % n = position := by
  have hpos : 0 < n := Nat.zero_lt_of_lt h
  have hback : ((position + (n - turn % n)) % n + turn) % n = position := by
    have hdiv := Nat.mod_add_div turn n
    have hlt := Nat.mod_lt turn hpos
    have hsum : position + (n - turn % n) + turn = position + n * (turn / n + 1) := by
      rw [Nat.mul_succ]
      omega
    rw [Nat.mod_add_mod, hsum, Nat.add_mul_mod_self_left, Nat.mod_eq_of_lt h]
  refine ⟨(position + (n - turn % n)) % n, ⟨Nat.mod_lt _ hpos, hback⟩, ?_⟩
  intro slot hslot
  have hsame : slot + turn ≡ (position + (n - turn % n)) % n + turn [MOD n] :=
    hslot.2.trans hback.symm
  exact (Nat.ModEq.add_right_cancel' turn hsame).eq_of_lt_of_lt hslot.1 (Nat.mod_lt _ hpos)

theorem rotated_ne {n : Nat} (hn : 1 < n) (slot : Nat) : slot % n ≠ (slot + 1) % n := by
  intro hsame
  have hdvd := (Nat.modEq_iff_dvd' (Nat.le_add_right slot 1)).mp hsame
  rw [Nat.add_sub_cancel_left] at hdvd
  exact absurd (Nat.dvd_one.mp hdvd) (Nat.ne_of_gt hn)

theorem Made.at (h : Made roster options schedule) {i : Nat} {step : Step}
    (hstep : schedule.steps[i]? = some step) : Follows roster options (1 + i) step := by
  obtain ⟨rotation, hrotation, hfollows⟩ := forall₂_at h.steps hstep
  obtain ⟨hlt, hsame⟩ := List.getElem?_eq_some_iff.mp hrotation
  rw [getElem_range', Nat.one_mul] at hsame
  exact hsame ▸ hfollows

theorem Follows.at {rotation slot : Nat} {step : Step} (h : Follows roster options rotation step)
    (hslot : slot < options.workers) :
    ∃ command, ⟨slot, [command]⟩ ∈ step.workers ∧ Told roster options rotation slot command := by
  have hlength := h.workers.length_eq
  rw [length_range] at hlength
  obtain ⟨slot', hslot', command, heach, htold⟩ :=
    forall₂_at h.workers (getElem?_eq_getElem (hlength ▸ hslot))
  obtain ⟨hlt, hsame⟩ := List.getElem?_eq_some_iff.mp hslot'
  rw [getElem_range] at hsame
  subst hsame
  exact ⟨command, heach ▸ getElem_mem _, htold⟩

theorem Made.turn (h : Made roster options schedule) (hadmitted : Admitted options) {i j : Nat}
    {step step' : Step} (hlt : i < j) (hstep : schedule.steps[i]? = some step)
    (hstep' : schedule.steps[j]? = some step') (hmove : IsMove step) (hmove' : IsMove step')
    (hbetween : ∀ k other, i < k → k < j → schedule.steps[k]? = some other → ¬ IsMove other) :
    j = i + kMoveEvery := by
  have hmoves := ((h.at hstep).isMove_iff hadmitted.workers).mp hmove
  have hmoves' := ((h.at hstep').isMove_iff hadmitted.workers).mp hmove'
  obtain ⟨hsets, hthird⟩ := Bool.and_eq_true_iff.mp hmoves
  have hthird' := (Bool.and_eq_true_iff.mp hmoves').2
  rw [beq_iff_eq] at hthird hthird'
  have hevery : kMoveEvery = 3 := rfl
  rw [hevery] at hthird hthird' ⊢
  by_contra hne
  have hfar : i + 3 < j := by omega
  obtain ⟨hlength, -⟩ := List.getElem?_eq_some_iff.mp hstep'
  have hother := getElem?_eq_getElem (Nat.lt_trans hfar hlength)
  apply hbetween (i + 3) _ (by omega) hfar hother
  apply ((h.at hother).isMove_iff hadmitted.workers).mpr
  rw [movesAt, hsets, Bool.true_and, beq_iff_eq, hevery]
  omega

end Facts

structure Obeyable (roster : List RosterEntry) (options : MixedOptions) (schedule : Schedule) :
    Prop where
  accepted : problem schedule options.workers = none
  increasing : (schedule.steps.map Step.atNs).Pairwise (· < ·)
  times : ∀ t, (∃ step ∈ schedule.steps, step.atNs = t) ↔
    0 < t ∧ t < options.durationNs.toInt ∧ options.rotationNs.toInt ∣ t
  phases : (schedule.phase :: schedule.steps.map Step.phase).Nodup
  oneEach : ∀ step ∈ schedule.steps,
    (step.workers.map fun each => (each.slot, each.commands.length)) =
      (List.range options.workers).map fun slot => (slot, 1)
  commands : (schedule.steps.flatMap fun step =>
    step.workers.flatMap WorkerCommands.commands).length ≤ kMaxCommands
  starts : schedule.start.length = options.workers ∧
    ∀ start ∈ schedule.start, Fits roster options start.workload start.footprintBytes
  switches : ∀ step ∈ schedule.steps, ∀ each ∈ step.workers, ∀ change,
    Command.switch change ∈ each.commands →
      Fits roster options change.workload change.footprintBytes
  moves : ∃ position : Nat → Nat → Nat,
    (∀ i step, schedule.steps[i]? = some step → IsMove step →
      (∀ slot < options.workers, ∃ cpus, options.placements[position i slot]? = some cpus ∧
        ⟨slot, [Command.rebind cpus]⟩ ∈ step.workers) ∧
      (options.placements.length = options.workers → ∀ place < options.placements.length,
        ∃! slot, slot < options.workers ∧ position i slot = place)) ∧
    ∀ i j step step', i < j → schedule.steps[i]? = some step → schedule.steps[j]? = some step' →
      IsMove step → IsMove step' →
      (∀ k other, i < k → k < j → schedule.steps[k]? = some other → ¬ IsMove other) →
      ∀ slot < options.workers, position i slot ≠ position j slot

section

variable {roster : List RosterEntry} {options : MixedOptions} {schedule : Schedule}
  (h : Made roster options schedule) (hadmitted : Admitted options)
include h hadmitted

theorem Made.obeyable
    (hroster : ∀ entry ∈ roster, isValidName entry.name = true ∧ 0 < entry.minFootprintBytes) :
    Obeyable roster options schedule where
  accepted := problem_eq_none (h.rules hadmitted hroster)
  increasing := h.increasing hadmitted
  times := h.times hadmitted
  phases := h.phases
  oneEach := by
    intro step hstep
    obtain ⟨rotation, -, hfollows⟩ := forall₂_mem h.steps hstep
    exact hfollows.oneEach
  commands := by
    have hcommands := hadmitted.commands
    rw [Nat.mul_succ, Nat.mul_comm] at hcommands
    exact Nat.le_trans h.commands (Nat.le_trans (Nat.le_add_right _ _) hcommands)
  starts := by
    refine ⟨by rw [← h.start.length_eq, length_range], ?_⟩
    intro start hstart
    obtain ⟨-, -, hfits⟩ := forall₂_mem h.start hstart
    exact hfits
  switches := by
    intro step hstep each heach change hchange
    obtain ⟨rotation, -, hfollows⟩ := forall₂_mem h.steps hstep
    obtain ⟨slot, command, -, rfl, htold⟩ := hfollows.told heach
    obtain rfl := mem_singleton.mp hchange
    exact htold.2
  moves := by
    refine ⟨fun i slot => whereOf options (1 + i) slot, ?_, ?_⟩
    · intro i step hstep hmove
      have hmoves := ((h.at hstep).isMove_iff hadmitted.workers).mp hmove
      constructor
      · intro slot hslot
        obtain ⟨command, hmem, htold⟩ := (h.at hstep).at hslot
        cases command with
        | rebind cpus => exact ⟨cpus, htold.2, hmem⟩
        | switch change =>
          rw [htold.1] at hmoves
          cases hmoves
        | _ => exact htold.elim
      · intro hsets place hplace
        rw [← hsets]
        exact existsUnique_rotated _ hplace
    · intro i j step step' hlt hstep hstep' hmove hmove' hbetween slot _
      have hturn := h.turn hadmitted hlt hstep hstep' hmove hmove' hbetween
      have hmoves := ((h.at hstep).isMove_iff hadmitted.workers).mp hmove
      have hsets : 1 < options.placements.length := by
        have hpos := length_pos_iff.mpr (placements_ne_nil hmoves)
        have hone := hadmitted.sets
        omega
      have hnext : slot + (1 + j) / kMoveEvery = slot + (1 + i) / kMoveEvery + 1 := by
        rw [hturn, ← Nat.add_assoc, Nat.add_div_right _ (by decide), Nat.add_assoc]
      simp only [whereOf, hnext]
      exact rotated_ne hsets _

end

section Roster

variable {registry : Registry} {name : String} {ceilingBytes : UInt64}

theorem leastFrom_least {rounds : Nat} {footprint least : UInt64}
    (h : leastFrom registry name ceilingBytes rounds footprint = some least) :
    least ≤ ceilingBytes ∧ creatable registry name least = true ∧
      ∃ k, least = (· * 2)^[k] footprint ∧
        ∀ j < k, creatable registry name ((· * 2)^[j] footprint) = false := by
  induction rounds generalizing footprint with
  | zero => cases h
  | succ rounds ih =>
    unfold leastFrom at h
    split_ifs at h with hceiling hmade
    · cases h
      exact ⟨hceiling, hmade, 0, rfl, by simp⟩
    · obtain ⟨hle, hmakes, k, hk, hbelow⟩ := ih h
      refine ⟨hle, hmakes, k + 1, hk, fun j hj => ?_⟩
      cases j with
      | zero => simpa using hmade
      | succ j => exact hbelow j (by omega)

theorem leastFrom_isSome {rounds k : Nat} {footprint : UInt64} (hk : k < rounds)
    (hle : footprint.toNat * 2 ^ k ≤ ceilingBytes.toNat)
    (hmade : creatable registry name ((· * 2)^[k] footprint) = true) :
    (leastFrom registry name ceilingBytes rounds footprint).isSome = true := by
  induction rounds generalizing footprint k with
  | zero => cases hk
  | succ rounds ih =>
    have hceiling : footprint ≤ ceilingBytes :=
      Nat.le_trans (Nat.le_mul_of_pos_right _ (Nat.two_pow_pos k)) hle
    rw [leastFrom, if_pos hceiling]
    by_cases hnow : creatable registry name footprint = true
    · rw [if_pos hnow]
      rfl
    cases k with
    | zero => exact absurd hmade hnow
    | succ k =>
      have hpos := Nat.le_mul_of_pos_right (footprint.toNat * 2) (Nat.two_pow_pos k)
      have hlt := ceilingBytes.toNat_lt
      rw [Nat.pow_succ', ← Nat.mul_assoc] at hle
      have hroom : ¬ceilingBytes / 2 < footprint := by
        show ¬ceilingBytes.toNat / 2 < footprint.toNat
        omega
      have hdouble : (footprint * 2).toNat = footprint.toNat * 2 := by
        rw [UInt64.toNat_mul]
        exact Nat.mod_eq_of_lt (show footprint.toNat * 2 < 2 ^ 64 by omega)
      rw [if_neg hnow, if_neg hroom]
      exact ih (Nat.lt_of_succ_lt_succ hk) (hdouble ▸ hle) hmade

end Roster

/-- A roster has each workload that is made at a doubling of the least footprint within the ceiling,
with the first such, and no other. -/
theorem rosterOf_least (registry : Registry) (ceilingBytes : UInt64) :
    (∀ entry ∈ rosterOf registry ceilingBytes,
      isValidName entry.name = true ∧ 0 < entry.minFootprintBytes ∧
        entry.minFootprintBytes ≤ ceilingBytes ∧
        creatable registry entry.name entry.minFootprintBytes = true ∧
        ∃ k, entry.minFootprintBytes = (· * 2)^[k] kLeast ∧
          ∀ j < k, creatable registry entry.name ((· * 2)^[j] kLeast) = false) ∧
    ∀ name ∈ registry.names, ∀ k, kLeast.toNat * 2 ^ k ≤ ceilingBytes.toNat →
      creatable registry name ((· * 2)^[k] kLeast) = true →
      ∃ entry ∈ rosterOf registry ceilingBytes, entry.name = name := by
  constructor
  · intro entry hentry
    obtain ⟨name, hname, hsome⟩ := mem_filterMap.mp hentry
    obtain ⟨footprint, hfootprint, rfl⟩ := Option.map_eq_some_iff.mp hsome
    obtain ⟨hle, hmakes, hfirst⟩ := leastFrom_least hfootprint
    refine ⟨registry.names_valid name hname, ?_, hle, hmakes, hfirst⟩
    rw [creatable] at hmakes
    cases hcreate : registry.create name ⟨1, footprint, 0, .kScalar⟩ with
    | error e =>
      rw [hcreate] at hmakes
      cases hmakes
    | ok workload => exact workload.plan.footprint_pos
  · intro name hname k hle hmade
    have hk : k < 64 := by
      have hlt := ceilingBytes.toNat_lt
      have hpow : 2 ^ k < 2 ^ 64 := by
        have hleast := Nat.le_mul_of_pos_left (2 ^ k) (show 0 < kLeast.toNat by decide)
        omega
      exact (Nat.pow_lt_pow_iff_right (by decide)).mp hpow
    obtain ⟨footprint, hfootprint⟩ := Option.isSome_iff_exists.mp (leastFrom_isSome hk hle hmade)
    exact ⟨⟨name, footprint⟩, mem_filterMap.mpr ⟨name, hname, by rw [hfootprint]; rfl⟩, rfl⟩

theorem soloRegistry_least : ∃ entry ∈ rosterOf Controller.soloRegistry 1000000,
    entry.name = "integer" :=
  (rosterOf_least Controller.soloRegistry 1000000).2 "integer" (by decide +kernel) 1
    (by decide +kernel) (by decide +kernel)

/-- Making a schedule never overflows, and one that is made is accepted and can be obeyed. -/
theorem mixed_schedules_are_obeyable (roster : List RosterEntry) (options : MixedOptions)
    (hroster : ∀ entry ∈ roster, isValidName entry.name = true ∧ 0 < entry.minFootprintBytes) :
    ∃ answer, makeMixed roster options = some answer ∧
      ∀ schedule, answer = .ok schedule → Obeyable roster options schedule := by
  obtain ⟨refused, hrefused⟩ | ⟨hadmitted, husable, hmake⟩ := makeMixed_cases roster options
  · exact ⟨.error refused, hrefused, nofun⟩
  · obtain ⟨schedule, hschedule, hmade⟩ :=
      scheduleOf_spec hadmitted husable fun entry hentry => (hroster entry hentry).1
    refine ⟨.ok schedule, ?_, ?_⟩
    · rw [hmake, hschedule]
      rfl
    · intro other hother
      cases hother
      exact hmade.obeyable hadmitted hroster

def smallOptions : MixedOptions :=
  { workers := 2, durationNs := 10, rotationNs := 2, footprintBytes := 131072
    placements := [[0], [1]] }

def smallRoster : List RosterEntry := [⟨"fft", 65536⟩, ⟨"sort", 131072⟩]

theorem small_schedule_is_obeyable :
    (∀ entry ∈ smallRoster, isValidName entry.name = true ∧ 0 < entry.minFootprintBytes) ∧
      ∃ schedule, makeMixed smallRoster smallOptions = some (.ok schedule) ∧
        Obeyable smallRoster smallOptions schedule := by
  have hroster : ∀ entry ∈ smallRoster,
      isValidName entry.name = true ∧ 0 < entry.minFootprintBytes := by decide +kernel
  obtain ⟨answer, hanswer, hobeyable⟩ :=
    mixed_schedules_are_obeyable smallRoster smallOptions hroster
  have hok : ((makeMixed smallRoster smallOptions).map Except.isOk) = some true := by
    decide +kernel
  cases answer with
  | error refused =>
    rw [hanswer] at hok
    cases hok
  | ok schedule => exact ⟨hroster, schedule, hanswer, hobeyable schedule rfl⟩

end LoadForge.Mixed
