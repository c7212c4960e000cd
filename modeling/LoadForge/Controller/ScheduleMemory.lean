import Mathlib.Algebra.Order.BigOperators.Group.List
import LoadForge.Controller.Footprints
import LoadForge.Controller.Safety

namespace LoadForge.Controller

open Framework Config Mixed Worker List

/-- The controller's way through a schedule and the memory of the workers it commands. -/
structure Fleet where
  steps : List Step
  holders : List Holder
  deriving DecidableEq

/-- The controller carries out the next step, or one worker makes a move. -/
inductive FleetEvent
  | step
  | moves (slot : Nat) (move : Move)
  deriving DecidableEq

def Fleet.after (f : Fleet) : FleetEvent → Fleet
  | .step =>
    match f.steps with
    | [] => f
    | step :: rest =>
      { steps := rest
        holders := f.holders.mapIdx fun slot h => h.told (commandsTo slot step) }
  | .moves slot move => { f with holders := stepAt Holder.move f.holders (slot, move) }

def launchFleet (schedule : Schedule) : Fleet where
  steps := schedule.steps
  holders := schedule.start.map fun start => { settled := start.footprintBytes }

def Fleet.held (f : Fleet) : Nat := (f.holders.map Holder.holds).sum

def reach (start : UInt64) (commands : List Command) : Nat :=
  (start.toNat :: footprintsOf commands).max (List.cons_ne_nil _ _)

/-- The most each worker can come to hold, in the order of their slots. -/
def reaches (schedule : Schedule) : List Nat :=
  schedule.start.mapIdx fun slot start =>
    reach start.footprintBytes (sendable slot schedule.steps)

def seenBy (slot : Nat) : List Step → List FleetEvent → List HolderEvent
  | _, [] => []
  | [], .step :: es => seenBy slot [] es
  | step :: rest, .step :: es => .told (commandsTo slot step) :: seenBy slot rest es
  | steps, .moves owner move :: es =>
    if owner = slot then .moves move :: seenBy slot steps es else seenBy slot steps es

theorem run_holder (slot : Nat) (f : Fleet) (es : List FleetEvent) :
    (run Fleet.after f es).holders[slot]? =
      f.holders[slot]?.map fun h => run Holder.after h (seenBy slot f.steps es) := by
  induction es generalizing f with
  | nil => cases hh : f.holders[slot]? <;> simp [seenBy, hh]
  | cons e es ih =>
    rw [run_cons, ih (f.after e)]
    obtain ⟨steps, holders⟩ := f
    cases e with
    | step =>
      cases steps with
      | nil => rfl
      | cons step rest =>
        simp only [Fleet.after, seenBy, getElem?_mapIdx, Option.map_map]
        rfl
    | moves owner move =>
      simp only [Fleet.after, seenBy, stepAt, getElem?_modify]
      cases hh : holders[slot]? with
      | none => simp
      | some h => split_ifs <;> simp_all [Holder.after]

theorem run_holders_length (f : Fleet) (es : List FleetEvent) :
    (run Fleet.after f es).holders.length = f.holders.length := by
  refine run_inv (fun g : Fleet => g.holders.length = f.holders.length) (fun g e hg => ?_) f es rfl
  obtain ⟨steps, holders⟩ := g
  cases e with
  | step =>
    cases steps with
    | nil => exact hg
    | cons step rest => exact (length_mapIdx).trans hg
  | moves owner move => exact (stepAt_length _ _ _).trans hg

theorem mem_seenBy (slot : Nat) (steps : List Step) (es : List FleetEvent)
    (commands : List Command) (hc : HolderEvent.told commands ∈ seenBy slot steps es) :
    ∃ step ∈ steps, commands = commandsTo slot step := by
  induction es generalizing steps with
  | nil => cases steps <;> cases hc
  | cons e es ih =>
    cases e with
    | step =>
      cases steps with
      | nil => exact ih [] hc
      | cons step rest =>
        rw [seenBy, mem_cons] at hc
        obtain hfirst | hrest := hc
        · cases hfirst
          exact ⟨step, (by simp), rfl⟩
        · obtain ⟨later, hlater, hcommands⟩ := ih rest hrest
          exact ⟨later, mem_cons_of_mem _ hlater, hcommands⟩
    | moves owner move =>
      have hrest : HolderEvent.told commands ∈ seenBy slot steps es := by
        cases steps <;> simp only [seenBy] at hc <;> split_ifs at hc <;> simp_all
      exact ih steps hrest

theorem footprints_sendable (slot : Nat) (steps : List Step) (step : Step) (hs : step ∈ steps)
    (bytes : Nat) (hb : bytes ∈ footprintsOf ((commandsTo slot step).take kMaxUnanswered)) :
    bytes ∈ footprintsOf (sendable slot steps) := by
  obtain ⟨command, hcommand, hfootprint⟩ := mem_filterMap.mp hb
  exact mem_filterMap.mpr ⟨command, mem_flatMap.mpr ⟨step, hs, hcommand⟩, hfootprint⟩

theorem le_reach (start : UInt64) (commands : List Command) (bytes : Nat)
    (hb : bytes ∈ start.toNat :: footprintsOf commands) : bytes ≤ reach start commands :=
  le_max_of_mem hb

theorem reach_mem (start : UInt64) (commands : List Command) :
    reach start commands ∈ start.toNat :: footprintsOf commands := max_mem _

theorem run_holds_le (schedule : Schedule) (slot : Nat) (start : Start)
    (hstart : schedule.start[slot]? = some start) (es : List FleetEvent) (h : Holder)
    (hh : (run Fleet.after (launchFleet schedule) es).holders[slot]? = some h) :
    h.holds ≤ reach start.footprintBytes (sendable slot schedule.steps) := by
  rw [run_holder, launchFleet, getElem?_map, hstart] at hh
  cases hh
  refine (run_within _ _ ?_ _ ?_).holds_le
  · refine ⟨le_reach _ _ _ (by simp), ?_, ?_⟩
    · intro bytes hbytes
      cases hbytes
    · intro bytes hbytes
      cases hbytes
  · intro commands hcommands bytes hbytes
    obtain ⟨step, hstep, rfl⟩ := mem_seenBy slot schedule.steps es commands hcommands
    exact le_reach _ _ _ (mem_cons_of_mem _
      (footprints_sendable slot schedule.steps step hstep bytes hbytes))

theorem run_held_le (schedule : Schedule) (es : List FleetEvent) :
    (run Fleet.after (launchFleet schedule) es).held ≤ (reaches schedule).sum := by
  refine List.Forall₂.sum_le_sum (List.forall₂_iff_get.mpr ⟨?_, ?_⟩)
  · simp [reaches, run_holders_length, launchFleet]
  · intro slot hslot hslot'
    have hlt : slot < schedule.start.length := by simpa [reaches] using hslot'
    have hget : slot < (run Fleet.after (launchFleet schedule) es).holders.length := by
      simpa using hslot
    simpa [reaches] using run_holds_le schedule slot schedule.start[slot]
      (getElem?_eq_getElem hlt) es _ (getElem?_eq_getElem hget)

/-- A run of the whole fleet in which every worker follows its own script between steps. -/
def weave (count : Nat) : List Step → (Nat → Nat → List Move) → List FleetEvent
  | [], _ => []
  | _ :: steps, script =>
    .step :: ((deal count fun slot => script slot 0).map (fun each => .moves each.1 each.2) ++
      weave count steps fun slot index => script slot (index + 1))

theorem seenBy_moves (slot : Nat) (steps : List Step) (moves : List (Nat × Move))
    (es : List FleetEvent) :
    seenBy slot steps (moves.map (fun each => .moves each.1 each.2) ++ es) =
      (eventsOf slot moves).map .moves ++ seenBy slot steps es := by
  induction moves with
  | nil => rfl
  | cons move moves ih =>
    rw [map_cons, cons_append, seenBy, ih, eventsOf_cons]
    split_ifs <;> rfl

theorem seenBy_weave (count slot : Nat) (hslot : slot < count) (steps : List Step)
    (script : Nat → Nat → List Move) :
    seenBy slot steps (weave count steps script) = woven slot steps (script slot) := by
  induction steps generalizing script with
  | nil => rfl
  | cons step steps ih =>
    rw [weave, seenBy, seenBy_moves, eventsOf_deal, if_pos hslot, ih, woven]

/-- Without a Stop in the schedule, all the workers can hold the most they can at once. -/
theorem exists_run_held (schedule : Schedule)
    (hs : ∀ slot, Command.stop ∉ sendable slot schedule.steps) :
    ∃ es, (run Fleet.after (launchFleet schedule) es).held = (reaches schedule).sum := by
  have hscript : ∀ slot, ∃ script, ∀ start, schedule.start[slot]? = some start →
      (run Holder.after { settled := start.footprintBytes }
        (woven slot schedule.steps script)).holds =
          reach start.footprintBytes (sendable slot schedule.steps) := by
    intro slot
    cases hstart : schedule.start[slot]? with
    | none => exact ⟨fun _ => [], by simp⟩
    | some start =>
      obtain ⟨script, hreached⟩ := run_woven_reaches slot schedule.steps start.footprintBytes _
        (hs slot) (reach_mem start.footprintBytes (sendable slot schedule.steps))
      refine ⟨script, ?_⟩
      rintro _ ⟨⟩
      exact hreached
  choose script hreached using hscript
  refine ⟨weave schedule.start.length schedule.steps script, ?_⟩
  refine congrArg List.sum (ext_getElem? fun slot => ?_)
  rw [getElem?_map, run_holder, launchFleet, getElem?_map, reaches, getElem?_mapIdx]
  cases hstart : schedule.start[slot]? with
  | none => rfl
  | some start =>
    have hslot : slot < schedule.start.length := (List.getElem?_eq_some_iff.mp hstart).1
    simp only [Option.map_some]
    rw [seenBy_weave _ slot hslot, hreached slot start hstart]

/-- The workers stay within a ceiling when the largest footprints they are told do; where no Stop
is among the commands, only then. -/
theorem schedule_memory_within_ceiling (schedule : Schedule) (ceiling : UInt64) :
    ((reaches schedule).sum ≤ ceiling.toNat →
      ∀ es, (run Fleet.after (launchFleet schedule) es).held ≤ ceiling.toNat) ∧
    ((∀ slot, Command.stop ∉ sendable slot schedule.steps) →
      (∀ es, (run Fleet.after (launchFleet schedule) es).held ≤ ceiling.toNat) →
        (reaches schedule).sum ≤ ceiling.toNat) := by
  constructor
  · intro hreach es
    exact Nat.le_trans (run_held_le schedule es) hreach
  · intro hs hruns
    obtain ⟨es, hes⟩ := exists_run_held schedule hs
    rw [← hes]
    exact hruns es

/-- Two workers that trade footprints at one step: the one that grows may go first. -/
theorem trade_holds_past_ceiling :
    let schedule : Schedule := {
      workers := 2, start := [⟨"integer", 60⟩, ⟨"integer", 40⟩], phase := "warm"
      workload := "integer"
      steps := [⟨100, "trade", "integer",
        [⟨0, [.switch { workload := "integer", footprintBytes := 40 }]⟩,
          ⟨1, [.switch { workload := "integer", footprintBytes := 60 }]⟩]⟩] }
    let config : LoadForge.Config :=
      { workloads := [{name := "integer"}, {name := "integer"}] }
    let budget : MemoryBudget := ⟨100, none⟩
    problem schedule 2 = none ∧ checkMemory config (some budget) (some schedule) = .ok () ∧
      (run Fleet.after (launchFleet schedule)
        [.step, .moves 1 (.takes true), .moves 1 .made]).held = 120 ∧
      (ceilingOf budget).toNat = 100 := by
  decide +kernel

end LoadForge.Controller
