import Mathlib.Data.Nat.Digits.Defs
import LoadForge.Framework.Loop
import LoadForge.Workloads.Mixed
import LoadForge.Workloads.ScheduleRules

namespace LoadForge.Mixed

open Framework Worker Workloads List Option

section Admission

theorem signed_eq {value : Int} (hlow : -2 ^ 63 ≤ value) (hhigh : value < 2 ^ 63) :
    signed value = some value :=
  if_pos ⟨hlow, hhigh⟩

/-- How many multiples of the interval are inside of the run. -/
def fitting (durationNs intervalNs : Int64) : Nat :=
  ((durationNs.toInt - 1) / intervalNs.toInt).toNat

section Intervals

variable {durationNs intervalNs : Int64} (hduration : 0 < durationNs.toInt)
  (hinterval : 0 < intervalNs.toInt)

include hduration hinterval

theorem fitting_eq :
    (fitting durationNs intervalNs : Int) = (durationNs.toInt - 1) / intervalNs.toInt :=
  Int.toNat_of_nonneg (Int.ediv_nonneg (by omega) (Int.le_of_lt hinterval))

theorem le_fitting_iff {n : Nat} :
    n ≤ fitting durationNs intervalNs ↔ n * intervalNs.toInt < durationNs.toInt := by
  rw [← Int.ofNat_le, fitting_eq hduration hinterval, Int.le_ediv_iff_mul_le hinterval]
  omega

theorem fitting_lt : fitting durationNs intervalNs < 2 ^ 63 := by
  have hbound := durationNs.toInt_lt
  have hquotient : (durationNs.toInt - 1) / intervalNs.toInt ≤ durationNs.toInt - 1 :=
    Int.ediv_le_self _ (by omega)
  have hfitting := fitting_eq hduration hinterval
  omega

theorem intervalsIn_eq :
    intervalsIn durationNs intervalNs = some (fitting durationNs intervalNs) := by
  have hbound := durationNs.toInt_lt
  have hne : intervalNs ≠ 0 := by
    intro hzero
    rw [hzero, Int64.toInt_zero] at hinterval
    exact absurd hinterval (by decide)
  have hlast : 0 ≤ durationNs.toInt - 1 := by omega
  have hlt := fitting_lt hduration hinterval
  rw [intervalsIn, signed_eq (by omega) (by omega), bind_eq_bind, bind_some,
    if_neg hne, Int.tdiv_eq_ediv_of_nonneg hlast, ← fitting_eq hduration hinterval,
    signed_eq (by omega) (by omega), bind_some]
  apply congrArg some
  omega

end Intervals

def turns (options : MixedOptions) : Nat := fitting options.durationNs options.rotationNs

structure Admitted (options : MixedOptions) : Prop where
  workers : 0 < options.workers
  duration : 0 < options.durationNs.toInt
  rotation : 0 < options.rotationNs.toInt
  steps : turns options ≤ kMaxSteps
  commands : options.workers * (turns options + 1) ≤ kMaxCommands
  sets : options.placements.length ≠ 1
  cpus : ∀ cpus ∈ options.placements, isValid (.rebind cpus) = true

theorem rotationsOf_eq {options : MixedOptions} (hduration : 0 < options.durationNs.toInt)
    (hrotation : 0 < options.rotationNs.toInt) : rotationsOf options = some (turns options) :=
  intervalsIn_eq hduration hrotation

theorem refusalOf_cases (options : MixedOptions) :
    (∃ refused, refusalOf options = some (some refused)) ∨
      refusalOf options = some none ∧ Admitted options := by
  by_cases hworkers : options.workers = 0
  · exact .inl ⟨_, if_pos hworkers⟩
  by_cases hpositive : options.durationNs.toInt ≤ 0 ∨ options.rotationNs.toInt ≤ 0
  · rw [refusalOf, if_neg hworkers, if_pos hpositive]
    exact .inl ⟨_, rfl⟩
  by_cases hfootprint : options.footprintBytes = 0
  · rw [refusalOf, if_neg hworkers, if_neg hpositive, if_pos hfootprint]
    exact .inl ⟨_, rfl⟩
  have hduration : 0 < options.durationNs.toInt := by omega
  have hrotation : 0 < options.rotationNs.toInt := by omega
  rw [refusalOf, if_neg hworkers, if_neg hpositive, if_neg hfootprint,
    rotationsOf_eq hduration hrotation, bind_eq_bind, bind_some]
  split_ifs with hsteps hcommands hsets hcpus
  · exact .inl ⟨_, rfl⟩
  · exact .inl ⟨_, rfl⟩
  · exact .inl ⟨_, rfl⟩
  · exact .inl ⟨_, rfl⟩
  · refine .inr ⟨rfl, Nat.pos_of_ne_zero hworkers, hduration, hrotation, by omega, ?_, hsets, ?_⟩
    · exact (Nat.le_div_iff_mul_le (Nat.succ_pos _)).mp (Nat.le_of_not_lt hcommands)
    · intro cpus hmem
      by_contra hinvalid
      exact hcpus (any_eq_true.mpr ⟨cpus, hmem, by simp [hinvalid]⟩)

end Admission

section Choosing

/-- A workload of the roster at a footprint that it accepts and the options allow. -/
def Fits (roster : List RosterEntry) (options : MixedOptions) (workload : String)
    (footprintBytes : UInt64) : Prop :=
  ∃ entry ∈ roster, entry.name = workload ∧ entry.minFootprintBytes ≤ footprintBytes ∧
    footprintBytes ≤ options.footprintBytes

def usableOf (roster : List RosterEntry) (options : MixedOptions) : List RosterEntry :=
  roster.filter fun entry => entry.minFootprintBytes ≤ options.footprintBytes

theorem poolFor_subset (kind : Kind) (usable : List RosterEntry) (slot : Nat) :
    poolFor kind usable slot ⊆ usable := by
  unfold poolFor
  split_ifs with hempty
  · exact Subset.refl usable
  · cases kind with
    | kCompute => exact filter_subset_self _
    | kMemory => exact filter_subset_self _
    | kBalanced => exact filter_subset_self _
    | _ => exact nil_subset usable

theorem poolFor_ne_nil {usable : List RosterEntry} (kind : Kind) (slot : Nat)
    (h : usable ≠ []) : poolFor kind usable slot ≠ [] := by
  unfold poolFor
  split_ifs with hempty
  · exact h
  · simpa using hempty

theorem pick_spec {usable : List RosterEntry} (h : usable ≠ []) (kind : Kind) (seed : UInt64)
    (rotation slot : Nat) : ∃ entry ∈ usable, pick kind usable seed rotation slot = some entry := by
  have hpool := poolFor_ne_nil kind slot h
  have hindex := Nat.mod_lt
    (draw seed (UInt64.ofNat rotation) 0 .kPick +
      if kind = .kJoin then 0 else UInt64.ofNat slot).toNat (length_pos_iff.mpr hpool)
  refine ⟨_, poolFor_subset kind usable slot (getElem_mem hindex), ?_⟩
  exact getElem?_eq_getElem hindex

theorem assignment_fits {roster : List RosterEntry} {options : MixedOptions} {entry : RosterEntry}
    (h : entry ∈ usableOf roster options) (rotation slot : Nat) :
    Fits roster options (assignment entry options rotation slot).workload
      (assignment entry options rotation slot).footprintBytes := by
  obtain ⟨hmem, hmin⟩ := mem_filter.mp h
  have hmin : entry.minFootprintBytes ≤ options.footprintBytes := of_decide_eq_true hmin
  have hhalf : options.footprintBytes / 2 ≤ options.footprintBytes := by
    rw [UInt64.le_iff_toNat_le, UInt64.toNat_div]
    exact Nat.div_le_self _ _
  have hsize (size : UInt64) (hsize : size ≤ options.footprintBytes) :
      entry.minFootprintBytes ≤
          (if size < entry.minFootprintBytes then options.footprintBytes else size) ∧
        (if size < entry.minFootprintBytes then options.footprintBytes else size) ≤
          options.footprintBytes := by
    split_ifs with hsmall
    · exact ⟨hmin, UInt64.le_refl _⟩
    · exact ⟨UInt64.not_lt.mp hsmall, hsize⟩
  refine ⟨entry, hmem, rfl, hsize _ ?_⟩
  split_ifs
  · exact hhalf
  · exact UInt64.le_refl _

end Choosing

section Steps

theorem ascii_joinNames {names : List String} (h : ∀ name ∈ names, Ascii name) :
    Ascii (joinNames names) := by
  have hfold (label : String) (hlabel : Ascii label) : Ascii (names.foldl
      (fun label name => label ++ (if label.isEmpty then "" else "+") ++ name) label) := by
    induction names generalizing label with
    | nil => exact hlabel
    | cons name names ih =>
      obtain ⟨hname, hnames⟩ := forall_mem_cons.mp h
      have hplus : Ascii (if label.isEmpty then "" else "+") := by
        split_ifs
        · decide
        · decide
      exact ih hnames _ ((hlabel.append hplus).append hname)
  exact hfold "" (by decide)

theorem labelTooLong_labelOf {changes : List Switch}
    (h : ∀ change ∈ changes, isValidName change.workload = true) :
    labelTooLong (labelOf changes) = false := by
  apply labelTooLong_bounded
  apply ascii_joinNames
  intro name hname
  have hsorted := (destutter_sublist _ _).mem hname
  obtain ⟨change, hchange, rfl⟩ := mem_map.mp (mem_mergeSort.mp hsorted)
  exact ascii_name (h change hchange)

theorem phaseOf_numbered {rotation : Nat} (h : rotation ≤ kMaxSteps) (kind : Kind) :
    IsNumbered "r" rotation (phaseOf rotation kind) := by
  have hdigits : (Nat.toDigits 10 rotation).length ≤ 6 :=
    Nat.toDigits_length 10 rotation 6 (by decide) (Nat.lt_of_le_of_lt h (by decide))
  have hname : Ascii (nameOf kind) ∧ (nameOf kind).toList.length ≤ 13 := by
    cases kind <;> decide
  have hletter : "r".toList.length = 1 := rfl
  have hmax : kMaxLabelBytes = 64 := rfl
  exact ⟨nameOf kind, rfl, hname.1, by omega⟩

variable {roster : List RosterEntry} {options : MixedOptions}

def Told (roster : List RosterEntry) (options : MixedOptions) (rotation slot : Nat) :
    Command → Prop
  | .rebind cpus => movesAt options rotation = true ∧
      options.placements[whereOf options rotation slot]? = some cpus
  | .switch change => movesAt options rotation = false ∧
      Fits roster options change.workload change.footprintBytes
  | _ => False

structure Follows (roster : List RosterEntry) (options : MixedOptions) (rotation : Nat)
    (step : Step) : Prop where
  atNs : step.atNs = rotation * options.rotationNs.toInt
  phase : IsNumbered "r" rotation step.phase
  workload : labelTooLong step.workload = false
  workers : List.Forall₂ (fun slot each => ∃ command, each = ⟨slot, [command]⟩ ∧
    Told roster options rotation slot command) (List.range options.workers) step.workers

theorem placements_ne_nil {rotation : Nat} (h : movesAt options rotation = true) :
    options.placements ≠ [] := by
  have hsome := (Bool.and_eq_true_iff.mp h).1
  simpa using hsome

theorem commandOf_spec (husable : usableOf roster options ≠ []) (kind : Kind)
    (rotation slot : Nat) :
    ∃ command, commandOf kind (usableOf roster options) options rotation slot = some command ∧
      Told roster options rotation slot command := by
  cases hmoves : movesAt options rotation with
  | true =>
    have hwhere : whereOf options rotation slot < options.placements.length :=
      Nat.mod_lt _ (length_pos_iff.mpr (placements_ne_nil hmoves))
    refine ⟨.rebind options.placements[whereOf options rotation slot], ?_, hmoves,
      getElem?_eq_getElem hwhere⟩
    simp [commandOf, hmoves]
  | false =>
    obtain ⟨entry, hentry, hpick⟩ := pick_spec husable kind options.seed rotation slot
    refine ⟨.switch (assignment entry options rotation slot), ?_, hmoves,
      assignment_fits hentry rotation slot⟩
    rw [commandOf, hmoves, if_neg Bool.false_ne_true, hpick, map_some]

theorem mem_changesOf {each : WorkerCommands} {change : Switch} :
    change ∈ changesOf each ↔ Command.switch change ∈ each.commands := by
  rw [changesOf, mem_filterMap]
  constructor
  · intro h
    obtain ⟨command, hcommand, hchange⟩ := h
    cases command <;> cases hchange
    exact hcommand
  · intro h
    exact ⟨.switch change, h, rfl⟩

theorem kindAt_spec (options : MixedOptions) (rotation : Nat) :
    ∃ kind, kindAt options rotation = some kind := by
  unfold kindAt
  split_ifs
  · exact ⟨_, rfl⟩
  · exact ⟨_, getElem?_eq_getElem (Nat.mod_lt _ (by decide))⟩

theorem stepOf_spec (h : Admitted options) (husable : usableOf roster options ≠ [])
    (hroster : ∀ entry ∈ roster, isValidName entry.name = true) {rotation : Nat}
    (hrotation : rotation ≤ turns options) {current : String}
    (hcurrent : labelTooLong current = false) :
    ∃ step current', stepOf rotation (usableOf roster options) options current =
        some (step, current') ∧ Follows roster options rotation step ∧
        labelTooLong current' = false := by
  have hlt := (le_fitting_iff h.duration h.rotation).mp hrotation
  have hnonneg : 0 ≤ rotation * options.rotationNs.toInt :=
    Int.mul_nonneg (Int.natCast_nonneg _) (Int.le_of_lt h.rotation)
  have hbound := options.durationNs.toInt_lt
  obtain ⟨kind, hkind⟩ := kindAt_spec options rotation
  have hcommands : ∃ workers, ((range options.workers).mapM fun slot =>
        (commandOf kind (usableOf roster options) options rotation slot).map
          fun command => (⟨slot, [command]⟩ : WorkerCommands)) = some workers ∧
      Forall₂ (fun slot each => ∃ command, each = ⟨slot, [command]⟩ ∧
        Told roster options rotation slot command) (range options.workers) workers := by
    apply mapM_spec
    intro slot _
    obtain ⟨command, hcommand, htold⟩ := commandOf_spec husable kind rotation slot
    rw [hcommand, map_some]
    exact ⟨_, rfl, command, rfl, htold⟩
  obtain ⟨workers, hworkers, htold⟩ := hcommands
  have hlabel : labelTooLong (if movesAt options rotation then current else
      labelOf (workers.flatMap changesOf)) = false := by
    split_ifs
    · exact hcurrent
    · apply labelTooLong_labelOf
      intro change hchange
      obtain ⟨each, heach, hchange⟩ := mem_flatMap.mp hchange
      obtain ⟨slot, -, command, rfl, htold⟩ := forall₂_mem htold heach
      obtain rfl := mem_singleton.mp (mem_changesOf.mp hchange)
      obtain ⟨entry, hentry, hname, -⟩ := htold.2
      exact hname ▸ hroster entry hentry
  generalize hdone : (if movesAt options rotation then current else
    labelOf (workers.flatMap changesOf)) = label at hlabel
  refine ⟨⟨rotation * options.rotationNs.toInt, phaseOf rotation kind, label, workers⟩, label, ?_,
    ⟨rfl, phaseOf_numbered (Nat.le_trans hrotation h.steps) kind, hlabel, htold⟩, hlabel⟩
  rw [stepOf, signed_eq (by omega) (by omega), hkind]
  simp [hworkers, hdone]

end Steps

section Schedules

variable {roster : List RosterEntry} {options : MixedOptions}

structure Made (roster : List RosterEntry) (options : MixedOptions) (schedule : Schedule) :
    Prop where
  workers : schedule.workers = options.workers
  start : List.Forall₂ (fun _ start => Fits roster options start.workload start.footprintBytes)
    (List.range options.workers) schedule.start
  phase : schedule.phase = phaseOf 0 .kMixed
  workload : labelTooLong schedule.workload = false
  steps : List.Forall₂ (Follows roster options) (List.range' 1 (turns options)) schedule.steps

section

variable (h : Admitted options) (husable : usableOf roster options ≠ [])
  (hroster : ∀ entry ∈ roster, isValidName entry.name = true)
include h husable hroster

theorem steps_spec {label : String}
    (hlabel : labelTooLong label = false) :
    ∃ made, (range' 1 (turns options)).foldlM (nextStep (usableOf roster options) options)
        ([], label) = some made ∧
      Forall₂ (Follows roster options) (range' 1 (turns options)) made.1 := by
  refine result_mono (foldlM_range'_spec (fun k (made : List Step × String) =>
    Forall₂ (Follows roster options) (range' 1 k) made.1 ∧ labelTooLong made.2 = false) ?_ ?_)
    fun made hmade => hmade.1
  · intro k hk made hmade
    have hrotation : 1 + k ≤ turns options := by omega
    obtain ⟨step, current, hstep, hfollows, hcurrent⟩ :=
      stepOf_spec h husable hroster hrotation hmade.2
    refine ⟨(made.1 ++ [step], current), ?_, ?_, hcurrent⟩
    · rw [nextStep, hstep]
      rfl
    · rw [range'_1_concat]
      exact rel_append hmade.1 (Forall₂.cons hfollows Forall₂.nil)
  · exact ⟨Forall₂.nil, hlabel⟩

theorem scheduleOf_spec :
    ∃ schedule, scheduleOf (usableOf roster options) options = some schedule ∧
      Made roster options schedule := by
  have hstarts : ∃ first, ((range options.workers).mapM fun slot =>
        (pick .kMixed (usableOf roster options) options.seed 0 slot).map
          fun entry => assignment entry options 0 slot) = some first ∧
      Forall₂ (fun _ change => Fits roster options change.workload change.footprintBytes)
        (range options.workers) first := by
    apply mapM_spec
    intro slot _
    obtain ⟨entry, hentry, hpick⟩ := pick_spec husable .kMixed options.seed 0 slot
    rw [hpick, map_some]
    exact ⟨_, rfl, assignment_fits hentry 0 slot⟩
  obtain ⟨first, hfirst, hfits⟩ := hstarts
  have hlabel : labelTooLong (labelOf first) = false := by
    apply labelTooLong_labelOf
    intro change hchange
    obtain ⟨-, -, entry, hentry, hname, -⟩ := forall₂_mem hfits hchange
    exact hname ▸ hroster entry hentry
  obtain ⟨⟨steps, current⟩, hloop, hsteps⟩ := steps_spec h husable hroster hlabel
  refine ⟨⟨options.workers, first.map fun change => ⟨change.workload, change.footprintBytes⟩,
    phaseOf 0 .kMixed, labelOf first, steps⟩, ?_, rfl, ?_, rfl, hlabel, hsteps⟩
  · rw [scheduleOf, hfirst, rotationsOf_eq h.duration h.rotation]
    simp [hloop]
  · rw [forall₂_map_right_iff]
    exact hfits

end

/-- The options are refused, or a schedule is made of the entries that accept them. -/
theorem makeMixed_cases (roster : List RosterEntry) (options : MixedOptions) :
    (∃ refused, makeMixed roster options = some (.error refused)) ∨
      Admitted options ∧ usableOf roster options ≠ [] ∧
        makeMixed roster options = (scheduleOf (usableOf roster options) options).map .ok := by
  obtain ⟨refused, hrefused⟩ | ⟨hnone, hadmitted⟩ := refusalOf_cases options
  · refine .inl ⟨refused, ?_⟩
    rw [makeMixed, hrefused]
    rfl
  rw [makeMixed, hnone, bind_eq_bind, bind_some]
  by_cases hempty : (usableOf roster options).isEmpty = true
  · exact .inl ⟨_, if_pos hempty⟩
  · exact .inr ⟨hadmitted, by simpa using hempty, if_neg hempty⟩

end Schedules

end LoadForge.Mixed
