import LoadForge.Controller.Tick
import LoadForge.Worker.Halting

namespace LoadForge.Controller

open Framework Mixed Worker List

/-- The commands a step has for one worker, in the order they are sent. -/
def commandsTo (slot : Nat) (step : Step) : List Command :=
  step.workers.flatMap fun each => if each.slot = slot then each.commands else []

variable (commands : List Command)

/-- The footprints the Switches among some commands ask for. -/
def footprintsOf : List Nat :=
  commands.filterMap fun
    | .switch change => some change.footprintBytes.toNat
    | _ => none

/-- A worker's memory: the commands in its pipe, those unanswered, the footprint of its runner and
the one being made. -/
structure Holder where
  pipe : List Command := []
  unanswered : Nat := 0
  settled : UInt64
  making : Option UInt64 := none
  ended : Bool := false
  deriving DecidableEq

def Holder.holds (h : Holder) : Nat :=
  if h.ended ∨ h.making.isSome then 0 else h.settled.toNat

/-- It takes a command, makes the new runner, goes back to the old one, ends, or an answer is
read. -/
inductive Move
  | takes (known : Bool)
  | made
  | restored
  | ends
  | heard
  deriving DecidableEq

/-- What a command does as it is taken. A Rebind and a Switch release the runner first. -/
def Holder.obey (h : Holder) (known : Bool) : Command → Holder
  | .stop => { h with ended := true }
  | .rebind _ => { h with making := some h.settled }
  | .switch change => if known then { h with making := some change.footprintBytes } else h
  | _ => h

def Holder.take (h : Holder) (known : Bool) : Holder :=
  match h.pipe with
  | [] => h
  | command :: rest => { h with pipe := rest }.obey known command

def Holder.move (h : Holder) : Move → Holder
  | .takes known => if h.ended ∨ h.making.isSome then h else h.take known
  | .made =>
    match h.making with
    | some bytes => { h with settled := bytes, making := none }
    | none => h
  | .restored => { h with making := none }
  | .ends => { h with ended := true }
  | .heard =>
    if h.pipe.length + h.making.toList.length < h.unanswered then
      { h with unanswered := h.unanswered - 1 }
    else h

/-- The commands of a step that are sent: a worker with too many unanswered is sent no more. -/
def Holder.admits (h : Holder) (commands : List Command) : List Command :=
  commands.take (kMaxUnanswered - h.unanswered)

def Holder.told (h : Holder) (commands : List Command) : Holder :=
  { h with
    pipe := h.pipe ++ h.admits commands
    unanswered := h.unanswered + (h.admits commands).length }

inductive HolderEvent
  | told (commands : List Command)
  | moves (move : Move)

def Holder.after (h : Holder) : HolderEvent → Holder
  | .told commands => h.told commands
  | .moves move => h.move move

section Obeyed

variable (w : Services)

theorem andThen_args (P : WorkloadArgs → Prop) (turn : Turn) (next : Ticker → Turn)
    (hturn : P turn.ticker.args)
    (hnext : ∀ t, t.args = turn.ticker.args → P (next t).ticker.args) :
    P (turn.andThen next).ticker.args := by
  unfold Turn.andThen
  split
  · exact hnext turn.ticker rfl
  · exact hturn

theorem told_args (t : Ticker) (sequence : UInt32) (status : AckStatus) (detail : String) :
    ((t.tellMemory w).andThen fun t => t.reply w sequence status detail).ticker.args = t.args := by
  have htold := (send_keeps w t (.memory t.runner.memoryLock)).args
  refine andThen_args (· = t.args) _ _ htold fun t' ht' => ?_
  exact ((send_keeps w t' _).args.trans ht').trans htold

/-- A worker whose runner was replaced runs what it was told to, or what it ran before. -/
theorem reconfigure_args (t : Ticker) (sequence : UInt32) (next : WorkloadArgs)
    (cpus : List UInt32) :
    (t.reconfigure w sequence next cpus).ticker.args = t.args ∨
      (t.reconfigure w sequence next cpus).ticker.args = next := by
  have hclosed := (closeRunner_keeps w t false).args
  refine andThen_args (fun args => args = t.args ∨ args = next) _ _ (.inl hclosed) fun t' ht' => ?_
  have ht := ht'.trans hclosed
  split
  · right
    rw [told_args]
    rfl
  · left
    unfold Ticker.restore
    split
    · exact ht
    · rw [told_args]
      exact ht

/-- A command handled leaves the footprint that taking it and settling its runner leaves. -/
theorem handle_footprint (t : Ticker) (message : ControlMessage) (nowNs : Int) :
    ∃ known, ∃ move ∈ [Move.made, Move.restored],
      (t.handle w message nowNs).ticker.args.footprintBytes =
        ((Holder.obey { settled := t.args.footprintBytes } known message.command).move
          move).settled := by
  by_cases hreplaces : replaces w message.command = true
  · cases hcommand : message.command with
    | rebind cpus =>
      refine ⟨true, .made, by simp, ?_⟩
      simp only [Ticker.handle, hcommand]
      obtain hargs | hargs := reconfigure_args w t message.sequence (movedArgs t.args) cpus
      · rw [hargs]
        rfl
      · rw [hargs]
        rfl
    | switch change =>
      rw [hcommand, replaces] at hreplaces
      cases hdescribed : w.descriptor change.workload with
      | error e =>
        rw [hdescribed] at hreplaces
        cases hreplaces
      | ok described =>
        simp only [Ticker.handle, hcommand, hdescribed]
        obtain hargs | hargs := reconfigure_args w t message.sequence
          (switchedArgs w t.args change described) t.cpus
        · exact ⟨true, .restored, by simp, by rw [hargs]; rfl⟩
        · exact ⟨true, .made, by simp, by rw [hargs]; rfl⟩
    | _ =>
      rw [hcommand] at hreplaces
      cases hreplaces
  · have hkept := handle_keeps w t message nowNs (by simpa using hreplaces)
    rw [hkept.args]
    cases hcommand : message.command with
    | rebind cpus => simp [hcommand, replaces] at hreplaces
    | switch change => exact ⟨false, .made, by simp, rfl⟩
    | _ => exact ⟨false, .made, by simp, rfl⟩

end Obeyed

section Sent

variable (o : RunOptions) (e : Tick)

/-- A worker that can be sent commands, with those it has not answered. -/
def Owes (s : RunState) (slot : Nat) (commands : List Command) : Prop :=
  ∃ w, s.workers[slot]? = some w ∧ w.reaped = false ∧ w.unanswered.map (·.command) = commands

theorem sendCommand_owes (s : RunState) (slot owner : Nat) (what : Command)
    (commands : List Command) (hpipe : ∀ slot sequence, e.pipe slot sequence = .written)
    (hs : Owes s slot commands) :
    Owes (sendCommand o e s owner what) slot
      (commands ++ (if owner = slot then [what] else []).take
        (kMaxUnanswered - commands.length)) := by
  obtain ⟨w, hw, hreaped, hcommands⟩ := hs
  unfold sendCommand
  by_cases howner : owner = slot
  · subst howner
    have hlength : w.unanswered.length = commands.length := by
      rw [← hcommands, length_map]
    simp only [hw, if_true, RunState.happen, run_cons, run_nil, stepAt, hpipe, hlength]
    by_cases hfull : kMaxUnanswered ≤ commands.length
    · refine ⟨w.after o.shortest .dropped, ?_, hreaped, ?_⟩
      · simp [hw, hfull]
      · simp [Tracked.after, hcommands, Nat.sub_eq_zero_of_le hfull]
    · refine ⟨w.after o.shortest (.command what .written s.clockRunningNs), ?_, ?_, ?_⟩
      · simp [hw, hfull]
      · simp [Tracked.after, command, hreaped]
      · have hroom : kMaxUnanswered - commands.length =
            (kMaxUnanswered - commands.length - 1) + 1 := by omega
        rw [hroom]
        simp [Tracked.after, command, hreaped, hcommands]
  · refine ⟨w, ?_, hreaped, by simp [howner, hcommands]⟩
    cases hother : s.workers[owner]? with
    | none => exact hw
    | some other => simp [RunState.happen, stepAt, howner, hw]

theorem take_room (commands first second : List Command) :
    (commands ++ first.take (kMaxUnanswered - commands.length)) ++
        second.take (kMaxUnanswered -
          (commands ++ first.take (kMaxUnanswered - commands.length)).length) =
      commands ++ (first ++ second).take (kMaxUnanswered - commands.length) := by
  rw [append_assoc, take_append, length_append, length_take]
  congr 3
  omega

theorem foldl_owes {α : Type} (f : RunState → α → RunState) (sends : α → List Command)
    (slot : Nat)
    (hf : ∀ s a commands, Owes s slot commands →
      Owes (f s a) slot (commands ++ (sends a).take (kMaxUnanswered - commands.length)))
    (as : List α) (s : RunState) (commands : List Command) (hs : Owes s slot commands) :
    Owes (as.foldl f s) slot
      (commands ++ (as.flatMap sends).take (kMaxUnanswered - commands.length)) := by
  induction as generalizing s commands with
  | nil => simpa using hs
  | cons a as ih =>
    have hrest := ih (f s a) _ (hf s a commands hs)
    rw [take_room] at hrest
    exact hrest

/-- A step sends a worker its commands while as many may go unanswered. -/
theorem runStep_admits (s : RunState) (step : Step) (slot : Nat) (commands : List Command)
    (h : Holder) (hh : h.unanswered = commands.length)
    (hpipe : ∀ slot sequence, e.pipe slot sequence = .written) (hs : Owes s slot commands) :
    Owes (runStep o e s step) slot (commands ++ h.admits (commandsTo slot step)) := by
  rw [Holder.admits, hh]
  refine foldl_owes _ (fun each => if each.slot = slot then each.commands else []) slot ?_
    step.workers (mark o s.countStep step.phase) commands hs
  intro s each commands hs
  have hall := foldl_owes (fun s what => sendCommand o e s each.slot what)
    (fun what => if each.slot = slot then [what] else []) slot
    (fun s what commands hs => sendCommand_owes o e s slot each.slot what commands hpipe hs)
    each.commands s commands hs
  have hsends : each.commands.flatMap (fun what => if each.slot = slot then [what] else []) =
      if each.slot = slot then each.commands else [] := by
    split_ifs <;> simp
  rw [hsends] at hall
  exact hall

theorem first_step_admits :
    Owes (runStep { sampler := none, sampleIntervalNs := 1, durationNs := 1 }
      { sinceNs := 0, elapsedNs := 0 }
      { workers := launchAll [soloPlan], sampling := { timeline := { capacity := 1 } }
        clockRunningNs := 0, temperatureCheckedNs := 0 }
      ⟨0, "busy", "integer", [⟨0, [.pause, .resume]⟩]⟩) 0 [.pause, .resume] :=
  runStep_admits _ _ _ _ 0 [] { settled := 0 } rfl (fun _ _ => rfl) ⟨_, rfl, rfl, rfl⟩

end Sent

section Bound

/-- No footprint a worker has, makes or is told to make is past a bound. -/
def Holder.Within (bound : Nat) (h : Holder) : Prop :=
  h.settled.toNat ≤ bound ∧ (∀ bytes ∈ h.making, bytes.toNat ≤ bound) ∧
    ∀ bytes ∈ footprintsOf h.pipe, bytes ≤ bound

theorem footprintsOf_append (commands rest : List Command) :
    footprintsOf (commands ++ rest) = footprintsOf commands ++ footprintsOf rest :=
  filterMap_append

section

variable {bound : Nat} {h : Holder} (hw : h.Within bound)
include hw

theorem Holder.Within.holds_le : h.holds ≤ bound := by
  unfold Holder.holds
  split_ifs
  · exact Nat.zero_le bound
  · exact hw.1

theorem Holder.Within.take (known : Bool) : (h.take known).Within bound := by
  obtain ⟨hsettled, hmaking, hpipe⟩ := hw
  unfold Holder.take
  cases hp : h.pipe with
  | nil => exact ⟨hsettled, hmaking, hpipe⟩
  | cons command rest =>
    rw [hp] at hpipe
    have hrest : ∀ bytes ∈ footprintsOf rest, bytes ≤ bound := by
      intro bytes hbytes
      refine hpipe bytes ?_
      rw [← singleton_append, footprintsOf_append]
      exact mem_append_right _ hbytes
    cases command with
    | rebind cpus =>
      refine ⟨hsettled, ?_, hrest⟩
      intro bytes hbytes
      cases hbytes
      exact hsettled
    | switch change =>
      have hchange : change.footprintBytes.toNat ≤ bound := hpipe _ mem_cons_self
      cases known with
      | true =>
        refine ⟨hsettled, ?_, hrest⟩
        intro bytes hbytes
        cases hbytes
        exact hchange
      | false => exact ⟨hsettled, hmaking, hrest⟩
    | _ => exact ⟨hsettled, hmaking, hrest⟩

theorem Holder.Within.move (move : Move) : (h.move move).Within bound := by
  cases move with
  | takes known =>
    simp only [Holder.move]
    split_ifs
    · exact hw
    · exact hw.take known
  | made =>
    simp only [Holder.move]
    cases hmaking : h.making with
    | none => exact hw
    | some bytes => exact ⟨hw.2.1 bytes hmaking, by simp, hw.2.2⟩
  | restored => exact ⟨hw.1, by simp [Holder.move], hw.2.2⟩
  | ends => exact hw
  | heard =>
    simp only [Holder.move]
    split_ifs
    · exact hw
    · exact hw

theorem Holder.Within.told
    (hc : ∀ bytes ∈ footprintsOf (commands.take kMaxUnanswered), bytes ≤ bound) :
    (h.told commands).Within bound := by
  refine ⟨hw.1, hw.2.1, ?_⟩
  intro bytes hbytes
  rw [Holder.told, footprintsOf_append, mem_append] at hbytes
  cases hbytes with
  | inl hpipe => exact hw.2.2 bytes hpipe
  | inr hsent =>
    have hsub : (h.admits commands).Sublist (commands.take kMaxUnanswered) :=
      take_sublist_take_left (Nat.sub_le _ _)
    exact hc bytes ((hsub.filterMap _).subset hsent)

end

/-- A worker that is only told of footprints within a bound never holds more. -/
theorem run_within (bound : Nat) (h : Holder) (hw : h.Within bound) (es : List HolderEvent)
    (hes : ∀ commands, HolderEvent.told commands ∈ es →
      ∀ bytes ∈ footprintsOf (commands.take kMaxUnanswered), bytes ≤ bound) :
    (run Holder.after h es).Within bound := by
  induction es generalizing h with
  | nil => exact hw
  | cons e es ih =>
    rw [run_cons]
    refine ih _ ?_ fun commands hc => hes commands (by simp [hc])
    cases e with
    | told commands => exact hw.told commands (hes commands (by simp))
    | moves move => exact hw.move move

end Bound

section Attained

/-- The footprint a worker is left with by commands it carries out one by one. -/
def settledAfter (bytes : UInt64) (commands : List Command) : UInt64 :=
  commands.foldl (fun bytes command =>
    match command with
    | .switch change => change.footprintBytes
    | _ => bytes) bytes

def doneInTurn (count : Nat) : List Move :=
  (List.replicate count [Move.takes true, Move.made]).flatten

theorem run_doneInTurn (commands rest : List Command) (n : Nat) (bytes : UInt64)
    (hs : Command.stop ∉ commands) :
    run Holder.move { pipe := commands ++ rest, unanswered := n, settled := bytes }
        (doneInTurn commands.length) =
      { pipe := rest, unanswered := n, settled := settledAfter bytes commands } := by
  induction commands generalizing bytes with
  | nil => rfl
  | cons command commands ih =>
    rw [mem_cons, not_or] at hs
    have hnext := fun bytes => ih bytes hs.2
    cases command with
    | stop => exact absurd rfl hs.1
    | switch change => exact hnext change.footprintBytes
    | _ => exact hnext bytes

theorem run_heard (n : Nat) (bytes : UInt64) :
    run Holder.move { unanswered := n, settled := bytes } (replicate n .heard) =
      { settled := bytes } := by
  induction n with
  | zero => rfl
  | succ n ih =>
    rw [replicate_succ, run_cons]
    exact ih

theorem run_moves (h : Holder) (moves : List Move) :
    run Holder.after h (moves.map .moves) = run Holder.move h moves := by
  induction moves generalizing h with
  | nil => rfl
  | cons move moves ih => exact ih (h.move move)

/-- What one worker goes through: the commands of each step, then its own moves up to the
next. -/
def woven (slot : Nat) : List Step → (Nat → List Move) → List HolderEvent
  | [], _ => []
  | step :: steps, script =>
    .told (commandsTo slot step) :: ((script 0).map .moves ++
      woven slot steps fun index => script (index + 1))

theorem run_woven_cons (slot : Nat) (h : Holder) (step : Step) (steps : List Step)
    (script : Nat → List Move) :
    run Holder.after h (woven slot (step :: steps) script) =
      run Holder.after (run Holder.move (h.told (commandsTo slot step)) (script 0))
        (woven slot steps fun index => script (index + 1)) := by
  rw [woven, run_cons, run_append, run_moves]
  rfl

theorem run_woven_idle (slot : Nat) (h : Holder) (steps : List Step) :
    (run Holder.after h (woven slot steps fun _ => [])).holds = h.holds := by
  induction steps generalizing h with
  | nil => rfl
  | cons step steps ih =>
    rw [run_woven_cons, run_nil, ih]
    rfl

/-- The commands a worker can be sent: of each step, as many as may go unanswered. -/
def sendable (slot : Nat) (steps : List Step) : List Command :=
  steps.flatMap fun step => (commandsTo slot step).take kMaxUnanswered

theorem told_idle (bytes : UInt64) (commands : List Command) :
    ({ settled := bytes } : Holder).told commands =
      { pipe := commands.take kMaxUnanswered
        unanswered := (commands.take kMaxUnanswered).length
        settled := bytes } := by
  simp [Holder.told, Holder.admits]

/-- A step's commands carried out and all their answers read. -/
def settling : List Move :=
  doneInTurn (commands.take kMaxUnanswered).length ++
    List.replicate (commands.take kMaxUnanswered).length .heard

section

variable (bytes : UInt64) (commands : List Command)

theorem run_told_settles (hs : Command.stop ∉ commands.take kMaxUnanswered) :
    run Holder.move (({ settled := bytes } : Holder).told commands) (settling commands) =
      { settled := settledAfter bytes (commands.take kMaxUnanswered) } := by
  have hdone := run_doneInTurn (commands.take kMaxUnanswered) []
    (commands.take kMaxUnanswered).length bytes hs
  rw [append_nil] at hdone
  rw [told_idle, settling, run_append, hdone, run_heard]

theorem settledAfter_append_switch (change : Switch) :
    settledAfter bytes (commands ++ [.switch change]) = change.footprintBytes := by
  simp [settledAfter]

theorem run_told_reaches (target : Nat)
    (hs : Command.stop ∉ commands.take kMaxUnanswered)
    (ht : target ∈ footprintsOf (commands.take kMaxUnanswered)) :
    ∃ moves, (run Holder.move (({ settled := bytes } : Holder).told commands) moves).holds =
      target := by
  obtain ⟨command, hcommand, hfootprint⟩ := mem_filterMap.mp ht
  obtain ⟨before, later, hsplit⟩ := append_of_mem hcommand
  cases command with
  | switch change =>
    cases hfootprint
    refine ⟨doneInTurn (before ++ [Command.switch change]).length, ?_⟩
    have hstop : Command.stop ∉ before ++ [.switch change] := by
      intro hmem
      rw [hsplit] at hs
      simp_all
    have hpipe : commands.take kMaxUnanswered = (before ++ [.switch change]) ++ later := by
      simp [hsplit]
    rw [told_idle, hpipe, run_doneInTurn _ later _ bytes hstop, settledAfter_append_switch]
    rfl
  | _ => cases hfootprint

end

/-- Without a Stop on its way, a worker can come to hold any footprint it can be told. -/
theorem run_woven_reaches (slot : Nat) (steps : List Step) (bytes : UInt64) (target : Nat)
    (hs : Command.stop ∉ sendable slot steps)
    (ht : target ∈ bytes.toNat :: footprintsOf (sendable slot steps)) :
    ∃ script, (run Holder.after { settled := bytes } (woven slot steps script)).holds =
      target := by
  induction steps generalizing bytes with
  | nil =>
    refine ⟨fun _ => [], ?_⟩
    rw [mem_singleton.mp ht]
    rfl
  | cons step steps ih =>
    rw [sendable, flatMap_cons, mem_append, not_or] at hs
    rw [sendable, flatMap_cons, footprintsOf_append, mem_cons, mem_append] at ht
    obtain rfl | hhere | hlater := ht
    · refine ⟨fun _ => [], ?_⟩
      rw [run_woven_idle]
      rfl
    · obtain ⟨moves, hmoves⟩ := run_told_reaches bytes _ target hs.1 hhere
      refine ⟨fun index => Nat.casesOn index moves fun _ => [], ?_⟩
      rw [run_woven_cons]
      exact (run_woven_idle slot _ steps).trans hmoves
    · obtain ⟨script, hscript⟩ := ih (settledAfter bytes _) hs.2 (mem_cons_of_mem _ hlater)
      refine ⟨fun index => Nat.casesOn index (settling (commandsTo slot step)) script, ?_⟩
      rw [← run_told_settles bytes _ hs.1] at hscript
      rw [run_woven_cons]
      exact hscript

end Attained

end LoadForge.Controller
