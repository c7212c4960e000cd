import LoadForge.Worker.VerifiedRun
import LoadForge.Workloads.Cycling
import LoadForge.Workloads.MixedRules

namespace LoadForge.Mixed

open Framework Worker Workloads List Option

section Obeying

def State.obeys (state : State) : Command → State
  | .pause => { state with paused := true }
  | .resume => { state with paused := false }
  | .setDuty duty => { state with busyPermille := duty.busyPermille }
  | _ => state

/-- What a worker does, as a schedule of load sees it. -/
def stateOf (t : Ticker) : State := ⟨t.paused, t.duty.duty.busyPermille⟩

def ChangesLoad : Command → Prop
  | .pause | .resume | .setDuty _ => True
  | _ => False

theorem stateOf_send (w : Services) (t : Ticker) (frame : Sent) :
    stateOf (t.send w frame).ticker = stateOf t := by
  unfold Ticker.send
  cases w.delivery t.frames <;> rfl

theorem stateOf_handle (w : Services) (t : Ticker) (message : ControlMessage) (nowNs : Int)
    (h : ChangesLoad message.command) :
    stateOf (t.handle w message nowNs).ticker = (stateOf t).obeys message.command := by
  obtain ⟨sequence, command⟩ := message
  cases command with
  | pause => exact stateOf_send w _ _
  | resume => exact stateOf_send w _ _
  | setDuty duty => exact stateOf_send w _ _
  | _ => exact h.elim

/-- A worker that has been given messages, each at its time. -/
def Ticker.given (w : Services) (t : Ticker) (messages : List (ControlMessage × Int)) : Ticker :=
  messages.foldl (fun t each => (t.handle w each.1 each.2).ticker) t

theorem stateOf_given (w : Services) (t : Ticker) (messages : List (ControlMessage × Int))
    (h : ∀ each ∈ messages, ChangesLoad each.1.command) :
    stateOf (Ticker.given w t messages) =
      (messages.map fun each => each.1.command).foldl State.obeys (stateOf t) := by
  induction messages generalizing t with
  | nil => rfl
  | cons each messages ih =>
    obtain ⟨heach, hrest⟩ := forall_mem_cons.mp h
    have hstate := stateOf_handle w t each.1 each.2 heach
    rw [map_cons, foldl_cons, ← hstate]
    exact ih _ hrest

end Obeying

section Levels

/-- What a worker does once a level is reached. A pause is from full load. -/
def stateAfter (wanted : UInt16) : State := if wanted = 0 then ⟨true, 1000⟩ else ⟨false, wanted⟩

def transitions : List (UInt16 × UInt16) :=
  [(1000, 0), (0, 1000), (1000, 500), (500, 1000), (0, 0), (1000, 1000)]

/-- What bringing a worker from a level to the next comes to. -/
structure Brings (wanted next : UInt16) (told : List Command × State) : Prop where
  state : told.2 = stateAfter next
  replayed : told.1.foldl State.obeys (stateAfter wanted) = stateAfter next
  single : told.1.length ≤ 1
  changes : ∀ command ∈ told.1, (stateAfter wanted).obeys command ≠ stateAfter wanted
  loads : ∀ command ∈ told.1, ChangesLoad command ∧ isValid command = true

theorem towardsLoad_brings {wanted next : UInt16} (h : (wanted, next) ∈ transitions)
    {periodNs : Int} (hperiod : 0 < periodNs) :
    Brings wanted next (towardsLoad (stateAfter wanted) next periodNs) := by
  simp only [transitions, mem_cons, Prod.mk.injEq, not_mem_nil, or_false] at h
  obtain ⟨rfl, rfl⟩ | ⟨rfl, rfl⟩ | ⟨rfl, rfl⟩ | ⟨rfl, rfl⟩ | ⟨rfl, rfl⟩ | ⟨rfl, rfl⟩ := h
  all_goals
    refine ⟨rfl, rfl, ?_, ?_, ?_⟩
    all_goals simp [towardsLoad, stateAfter, State.obeys, ChangesLoad, isValid, hperiod]

/-- The share of the workers that work at a level, in thousandths. -/
def shareAt (level : Nat) : Nat := (kCoreLevels.getD (level % kCoreLevels.length) 0).toNat

variable (options : CyclingOptions)

def workingAt (level : Nat) : Nat :=
  max 1 (options.workers * shareAt level / 1000)

def wantedAt (level slot : Nat) : UInt16 :=
  match options.kind with
  | .kLoad => (kLoadLevels.getD (level % kLoadLevels.length) ⟨0, ""⟩).busyPermille
  | .kCores => if slot < workingAt options level then 1000 else 0

/-- How busy a worker was asked to be before a level. -/
def wantedBefore (level slot : Nat) : UInt16 :=
  if level = 0 then 1000 else wantedAt options (level - 1) slot

theorem load_transitions (level : Nat) :
    ((kLoadLevels.getD (level % 4) ⟨0, ""⟩).busyPermille,
      (kLoadLevels.getD ((level + 1) % 4) ⟨0, ""⟩).busyPermille) ∈ transitions := by
  obtain h | h | h | h : level % 4 = 0 ∨ level % 4 = 1 ∨ level % 4 = 2 ∨ level % 4 = 3 := by omega
  all_goals
    rw [Nat.add_mod, h]
    decide

theorem wantedAt_transitions (level slot : Nat) :
    (wantedBefore options level slot, wantedAt options level slot) ∈ transitions := by
  cases hkind : options.kind with
  | kLoad =>
    cases level with
    | zero =>
      have hfirst : ((1000 : UInt16), (0 : UInt16)) ∈ transitions := by decide
      rw [wantedBefore, if_pos rfl, wantedAt, hkind]
      exact hfirst
    | succ level =>
      rw [wantedBefore, if_neg (Nat.succ_ne_zero level), wantedAt, wantedAt, hkind]
      exact load_transitions level
  | kCores =>
    have hwanted (level : Nat) :
        wantedAt options level slot = 0 ∨ wantedAt options level slot = 1000 := by
      rw [wantedAt, hkind]
      split_ifs
      · exact Or.inr rfl
      · exact Or.inl rfl
    have hbefore : wantedBefore options level slot = 0 ∨
        wantedBefore options level slot = 1000 := by
      unfold wantedBefore
      split_ifs
      · exact Or.inr rfl
      · exact hwanted _
    obtain hbefore | hbefore := hbefore <;> obtain hwanted | hwanted := hwanted level
    all_goals
      rw [hbefore, hwanted]
      decide

theorem shareAt_le (level : Nat) : shareAt level ≤ 1000 := by
  have hlt : level % kCoreLevels.length < 5 := Nat.mod_lt _ (by decide)
  unfold shareAt
  generalize level % kCoreLevels.length = index at hlt ⊢
  revert index
  decide

theorem workingAt_le {options : CyclingOptions} (h : 0 < options.workers) (level : Nat) :
    workingAt options level ≤ options.workers := by
  have hproduct : options.workers * shareAt level / 1000 ≤ options.workers :=
    Nat.div_le_of_le_mul (Nat.mul_comm 1000 _ ▸ Nat.mul_le_mul_left _ (shareAt_le level))
  exact Nat.max_le.mpr ⟨h, hproduct⟩

theorem levelOf_spec {options : CyclingOptions} (h : options.workers ≤ kMaxCommands)
    (hpos : 0 < options.workers) (level : Nat) :
    ∃ each, levelOf options level = some each ∧
      (∀ slot, wantedOf options each slot = wantedAt options level slot) ∧ Ascii each.name ∧
      each.name.toList.length ≤ 18 := by
  cases hkind : options.kind with
  | kLoad =>
    have hlt : level % kLoadLevels.length < kLoadLevels.length := Nat.mod_lt _ (by decide)
    have hwords : ∀ each ∈ kLoadLevels, Ascii each.name ∧ each.name.toList.length ≤ 18 := by
      decide
    refine ⟨⟨kLoadLevels[level % kLoadLevels.length].name, options.workers,
      kLoadLevels[level % kLoadLevels.length].busyPermille⟩, ?_, ?_,
      hwords _ (getElem_mem hlt)⟩
    · rw [levelOf, hkind]
      rw [getElem?_eq_getElem hlt, map_some]
    · intro slot
      rw [wantedOf, wantedAt, hkind]
      rw [getD_eq_getElem?_getD, getElem?_eq_getElem hlt, getD_some]
  | kCores =>
    have hlt : level % kCoreLevels.length < kCoreLevels.length := Nat.mod_lt _ (by decide)
    have hshare : kCoreLevels[level % kCoreLevels.length].toNat = shareAt level := by
      rw [shareAt, getD_eq_getElem?_getD, getElem?_eq_getElem hlt, getD_some]
    have hsmall : options.workers * shareAt level % 2 ^ 64 = options.workers * shareAt level := by
      apply Nat.mod_eq_of_lt
      exact Nat.lt_of_le_of_lt (Nat.mul_le_mul h (shareAt_le level)) (by decide)
    have hdigits (n : Nat) (hn : n ≤ options.workers) : (Nat.toDigits 10 n).length ≤ 7 := by
      apply Nat.toDigits_length 10 n 7 (by decide)
      exact Nat.lt_of_le_of_lt (Nat.le_trans hn h) (by decide)
    refine ⟨⟨toString (workingAt options level) ++ " of " ++ toString options.workers,
      workingAt options level, 1000⟩, ?_, ?_, ?_, ?_⟩
    · rw [levelOf, hkind]
      rw [getElem?_eq_getElem hlt, map_some, hshare, hsmall]
      rfl
    · intro slot
      rw [wantedOf, wantedAt, hkind]
    · have hof : Ascii " of " := by decide
      exact ((ascii_digits _).append hof).append (ascii_digits _)
    · have hworking := hdigits _ (workingAt_le hpos level)
      have hworkers := hdigits _ (Nat.le_refl options.workers)
      simp
      omega

end Levels

section Steps

variable {options : CyclingOptions}

structure Allowed (options : CyclingOptions) : Prop where
  workers : 0 < options.workers
  duration : 0 < options.durationNs.toInt
  dwell : 0 < options.dwellNs.toInt
  period : 0 < options.periodNs.toInt
  steps : fitting options.durationNs options.dwellNs + 1 ≤ kMaxSteps
  commands : options.workers * (fitting options.durationNs options.dwellNs + 1) ≤ kMaxCommands

def toldAt (options : CyclingOptions) (level slot : Nat) : List Command × State :=
  towardsLoad (stateAfter (wantedBefore options level slot)) (wantedAt options level slot)
    options.periodNs.toInt

theorem Allowed.brings (h : Allowed options) (level slot : Nat) :
    Brings (wantedBefore options level slot) (wantedAt options level slot)
      (toldAt options level slot) :=
  towardsLoad_brings (wantedAt_transitions options level slot) h.period

structure Reaches (options : CyclingOptions) (level : Nat) (step : Step) : Prop where
  atNs : step.atNs = level * options.dwellNs.toInt
  phase : IsNumbered "c" level step.phase
  workload : step.workload = cyclingWorkload options
  workers : step.workers =
    tellAll ((List.range options.workers).map fun slot => (slot, toldAt options level slot))

theorem zipIdx_map_range {α : Type} (f : Nat → α) (n : Nat) :
    ((range n).map f).zipIdx = (range n).map fun i => (f i, i) := by
  apply ext_getElem?
  intro i
  rw [getElem?_zipIdx, getElem?_map, getElem?_map]
  by_cases hi : i < n
  · rw [getElem?_range hi]
    simp
  · simp [hi]

def statesBefore (options : CyclingOptions) (level : Nat) : List State :=
  (List.range options.workers).map fun slot => stateAfter (wantedBefore options level slot)

theorem nextLevel_spec (h : Allowed options) {level : Nat}
    (hlevel : level ≤ fitting options.durationNs options.dwellNs) (steps : List Step) :
    ∃ step, nextLevel options (steps, statesBefore options level) level =
        some (steps ++ [step], statesBefore options (level + 1)) ∧ Reaches options level step := by
  have hlt := (le_fitting_iff h.duration h.dwell).mp hlevel
  have hnonneg : 0 ≤ level * options.dwellNs.toInt :=
    Int.mul_nonneg (Int.natCast_nonneg _) (Int.le_of_lt h.dwell)
  have hbound := options.durationNs.toInt_lt
  have hworkers : options.workers ≤ kMaxCommands :=
    Nat.le_trans (Nat.le_mul_of_pos_right _ (Nat.succ_pos _)) h.commands
  obtain ⟨each, hlevelOf, hwanted, hascii, hlength⟩ := levelOf_spec hworkers h.workers level
  have htold : ((statesBefore options level).zipIdx.map fun entry =>
      (entry.2, towardsLoad entry.1 (wantedOf options each entry.2) options.periodNs.toInt)) =
      (range options.workers).map fun slot => (slot, toldAt options level slot) := by
    rw [statesBefore, zipIdx_map_range, List.map_map]
    apply map_congr_left
    intro slot _
    rw [Function.comp_apply, hwanted slot]
    rfl
  have hstates : ((range options.workers).map fun slot =>
      (slot, toldAt options level slot)).map (fun each => each.2.2) =
      statesBefore options (level + 1) := by
    rw [List.map_map]
    apply map_congr_left
    intro slot _
    exact (h.brings level slot).state
  have hphase : IsNumbered "c" level (numbered "c" level each.name) := by
    have hlimit := h.steps
    have hdigits : (Nat.toDigits 10 level).length ≤ 6 :=
      Nat.toDigits_length 10 level 6 (by decide)
        (Nat.lt_of_le_of_lt (Nat.le_trans (Nat.le_succ_of_le hlevel) hlimit) (by decide))
    have hletter : "c".toList.length = 1 := rfl
    have hmax : kMaxLabelBytes = 64 := rfl
    exact ⟨each.name, rfl, hascii, by omega⟩
  refine ⟨⟨level * options.dwellNs.toInt, numbered "c" level each.name, cyclingWorkload options,
    tellAll ((range options.workers).map fun slot => (slot, toldAt options level slot))⟩, ?_,
    rfl, hphase, rfl, rfl⟩
  rw [nextLevel, signed_eq (by omega) (by omega), hlevelOf]
  simp only [bind_eq_bind, bind_some, htold, hstates]
  rfl

theorem levels_spec (h : Allowed options) :
    ∃ made, (range (fitting options.durationNs options.dwellNs + 1)).foldlM
        (nextLevel options) ([], replicate options.workers {}) = some made ∧
      Forall₂ (Reaches options)
        (range (fitting options.durationNs options.dwellNs + 1)) made.1 := by
  apply foldlM_range_result fun k (made : List Step × List State) =>
    made.2 = statesBefore options k ∧ Forall₂ (Reaches options) (range k) made.1
  · intro level hlevel made hmade
    obtain ⟨steps, states⟩ := made
    obtain ⟨rfl, hsteps⟩ := hmade
    obtain ⟨step, hnext, hreaches⟩ := nextLevel_spec h (Nat.lt_succ_iff.mp hlevel) steps
    refine ⟨_, hnext, rfl, ?_⟩
    rw [range_succ]
    exact rel_append hsteps (Forall₂.cons hreaches Forall₂.nil)
  · refine ⟨?_, Forall₂.nil⟩
    have hsame : statesBefore options 0 = (range options.workers).map fun _ => {} := rfl
    simp [hsame]
  · exact fun made hmade => hmade.2

end Steps

section Commands

def commandsTo (slot : Nat) (steps : List Step) : List Command :=
  steps.flatMap fun step =>
    (step.workers.filter fun each => each.slot = slot).flatMap WorkerCommands.commands

theorem commandsTo_append (slot : Nat) (steps others : List Step) :
    commandsTo slot (steps ++ others) = commandsTo slot steps ++ commandsTo slot others :=
  flatMap_append

theorem tellAll_filter (told : List (Nat × List Command × State)) (slot : Nat) :
    ((tellAll told).filter fun each => each.slot = slot).flatMap WorkerCommands.commands =
      told.flatMap fun each => if each.1 = slot then each.2.1 else [] := by
  induction told with
  | nil => rfl
  | cons each told ih =>
    rw [flatMap_cons, ← ih]
    cases hcommands : each.2.1 with
    | nil =>
      have hskip : tellAll (each :: told) = tellAll told := by
        rw [tellAll, filterMap_cons, hcommands]
        rfl
      rw [hskip, ite_self, nil_append]
    | cons command commands =>
      have hkeep : tellAll (each :: told) = ⟨each.1, command :: commands⟩ :: tellAll told := by
        rw [tellAll, filterMap_cons, hcommands]
        rfl
      rw [hkeep, filter_cons]
      by_cases hslot : each.1 = slot
      · rw [if_pos hslot, if_pos (decide_eq_true hslot), flatMap_cons]
      · rw [if_neg hslot, if_neg (by simpa using hslot), nil_append]

theorem flatMap_if_eq {α : Type} (f : Nat → List α) {slots : List Nat} (hslots : slots.Nodup)
    {slot : Nat} (hslot : slot ∈ slots) :
    (slots.flatMap fun each => if each = slot then f each else []) = f slot := by
  induction slots with
  | nil => cases hslot
  | cons each slots ih =>
    obtain ⟨hfresh, hrest⟩ := nodup_cons.mp hslots
    rw [flatMap_cons]
    by_cases hsame : each = slot
    · have hnone : (slots.flatMap fun each => if each = slot then f each else []) = [] := by
        apply flatMap_eq_nil_iff.mpr
        intro other hother
        apply if_neg
        intro hboth
        rw [hsame, ← hboth] at hfresh
        exact hfresh hother
      rw [if_pos hsame, hnone, append_nil, hsame]
    · have hmem := (mem_cons.mp hslot).resolve_left (Ne.symm hsame)
      rw [if_neg hsame, nil_append, ih hrest hmem]

variable {options : CyclingOptions}

theorem Reaches.commandsTo_eq {level slot : Nat} {step : Step} (h : Reaches options level step)
    (hslot : slot < options.workers) : commandsTo slot [step] = (toldAt options level slot).1 := by
  rw [commandsTo, flatMap_singleton, h.workers, tellAll_filter, flatMap_map]
  exact flatMap_if_eq (fun slot => (toldAt options level slot).1) nodup_range (mem_range.mpr hslot)

structure Cycles (options : CyclingOptions) (schedule : Schedule) : Prop where
  workers : schedule.workers = options.workers
  start : schedule.start = []
  phase : schedule.phase = "run"
  workload : schedule.workload = cyclingWorkload options
  steps : List.Forall₂ (Reaches options)
    (List.range (fitting options.durationNs options.dwellNs + 1)) schedule.steps

variable {schedule : Schedule}

theorem Cycles.at (h : Cycles options schedule) {level : Nat} {step : Step}
    (hstep : schedule.steps[level]? = some step) : Reaches options level step := by
  obtain ⟨level', hlevel, hreaches⟩ := forall₂_at h.steps hstep
  obtain ⟨hlt, hsame⟩ := List.getElem?_eq_some_iff.mp hlevel
  rw [getElem_range] at hsame
  exact hsame ▸ hreaches

section

variable (h : Cycles options schedule) (hallowed : Allowed options) {slot : Nat}
  (hslot : slot < options.workers) (level : Nat)
include h hallowed hslot

theorem Cycles.replayed (hlevel : level ≤ schedule.steps.length) :
    (commandsTo slot (schedule.steps.take level)).foldl State.obeys {} =
      stateAfter (wantedBefore options level slot) := by
  induction level with
  | zero => rfl
  | succ level ih =>
    have hstep := getElem?_eq_getElem (Nat.lt_of_succ_le hlevel)
    rw [take_add_one, hstep, toList_some, commandsTo_append, foldl_append,
      ih (Nat.le_of_succ_le hlevel), (h.at hstep).commandsTo_eq hslot]
    exact (hallowed.brings level slot).replayed

theorem Cycles.loads :
    ∀ command ∈ commandsTo slot (schedule.steps.take level), ChangesLoad command := by
  intro command hcommand
  obtain ⟨step, hstep, hmem⟩ := mem_flatMap.mp hcommand
  obtain ⟨level', hlevel'⟩ := mem_iff_getElem?.mp (mem_of_mem_take hstep)
  have hcommands := (h.at hlevel').commandsTo_eq hslot
  rw [commandsTo, flatMap_singleton] at hcommands
  rw [hcommands] at hmem
  exact ((hallowed.brings level' slot).loads command hmem).1

end

end Commands

end LoadForge.Mixed
