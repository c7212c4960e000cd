import LoadForge.Worker.TickRules

namespace LoadForge.Worker

open Framework Verification Verification.Integrity Workloads Ticker

/-- A command that has the worker replace its runner. -/
def replaces (w : Services) : Command → Bool
  | .rebind _ => true
  | .switch change => (w.descriptor change.workload).toOption.isSome
  | _ => false

section Kept

variable (w : Services)

/-- No unit is touched, the runner stays halted or not, and so does what is to be run. -/
structure Keeps (t : Ticker) (turn : Turn) : Prop where
  did : turn.ticker.did = t.did
  halted : turn.ticker.runner.halted = t.runner.halted
  args : turn.ticker.args = t.args

theorem Keeps.andThen {t : Ticker} {turn : Turn} {next : Ticker → Turn} (hturn : Keeps t turn)
    (hnext : ∀ t', t'.runner.halted = t.runner.halted → Keeps t' (next t')) :
    Keeps t (turn.andThen next) := by
  unfold Turn.andThen
  split
  · have hlater := hnext turn.ticker hturn.halted
    exact ⟨hlater.did.trans hturn.did, hlater.halted.trans hturn.halted,
      hlater.args.trans hturn.args⟩
  · exact hturn

theorem Keeps.since {t t' : Ticker} {turn : Turn} (hturn : Keeps t' turn) (hdid : t'.did = t.did)
    (hhalted : t'.runner.halted = t.runner.halted) (hargs : t'.args = t.args) : Keeps t turn :=
  ⟨hturn.did.trans hdid, hturn.halted.trans hhalted, hturn.args.trans hargs⟩

variable (t : Ticker)

theorem send_keeps (frame : Sent) : Keeps t (t.send w frame) := by
  unfold send
  split <;> exact ⟨rfl, rfl, rfl⟩

theorem sendAll_keeps (frames : List Sent) : Keeps t (t.sendAll w frames) := by
  induction frames generalizing t with
  | nil => exact ⟨rfl, rfl, rfl⟩
  | cons frame rest ih => exact (send_keeps w t frame).andThen fun t' _ => ih t'

theorem closeRunner_keeps (runOver : Bool) : Keeps t (t.closeRunner w runOver) := by
  unfold closeRunner finish
  split_ifs
  · exact ⟨rfl, rfl, rfl⟩
  · exact (sendAll_keeps w _ _).since rfl rfl rfl

theorem handle_keeps (message : ControlMessage) (nowNs : Int)
    (hm : replaces w message.command = false) : Keeps t (t.handle w message nowNs) := by
  unfold handle
  cases hcommand : message.command with
  | stop => exact (send_keeps w t _).andThen fun t' _ => ⟨rfl, rfl, rfl⟩
  | pause => exact (send_keeps w (t.setPaused true) _).since rfl rfl rfl
  | resume => exact (send_keeps w (t.setPaused false) _).since rfl rfl rfl
  | setDuty duty => exact (send_keeps w (t.setDuty duty nowNs) _).since rfl rfl rfl
  | rebind cpus =>
    rw [hcommand] at hm
    cases hm
  | switch change =>
    rw [hcommand, replaces] at hm
    cases hdescribed : w.descriptor change.workload with
    | error e =>
      simp only [hdescribed]
      exact send_keeps w t _
    | ok described =>
      rw [hdescribed] at hm
      cases hm

theorem slice_keeps (nowNs busyRemainingNs : Int) (e : TickWorld) (ht : t.runner.halted.isSome) :
    Keeps t (t.slice w nowNs busyRemainingNs e) := by
  obtain ⟨hdid, hrunner, stopped, hreport⟩ := runSlice_halted t.runner ht t.units e.slice
  unfold slice
  simp only [hreport]
  refine ⟨?_, ?_, rfl⟩
  · simp [ends, ran, hdid]
  · simp [ends, ran, hrunner]

theorem once_keeps (e : TickWorld) (ht : t.runner.halted.isSome)
    (hm : ∀ look, e.looked = .ok look → ∀ message ∈ look.messages,
      replaces w message.command = false) : Keeps t (t.once w e) := by
  refine once_of ⟨⟨rfl, rfl, rfl⟩, fun _ => ⟨rfl, rfl, rfl⟩, ?_, ?_, ?_, ?_, ?_⟩
  · intro t' error h
    exact ⟨h.did, h.halted, h.args⟩
  · intro t' reason h
    exact ⟨h.did, h.halted, h.args⟩
  · intro t' reason h
    exact ⟨h.did, h.halted, h.args⟩
  · intro look hlook message hmessage t' nowNs h
    exact (handle_keeps w t' message nowNs (hm look hlook message hmessage)).since h.did h.halted h.args
  · intro look hlook hnone elapsedNs nowNs busyRemainingNs
    exact (slice_keeps w (t.beat elapsedNs) nowNs _ e ht).since rfl rfl rfl

theorem settle_keeps (turn : Turn) (ht : Keeps t turn) :
    (settle w turn).ticker.did = t.did ∧
      (settle w turn).ticker.runner.halted = t.runner.halted := by
  have hclosed := closeRunner_keeps w turn.ticker true
  have hlast : (turn.ticker.conclude w).1 = (turn.ticker.closeRunner w true).ticker := by
    unfold conclude
    simp only
    split <;> rfl
  unfold settle
  split
  · exact ⟨ht.did, ht.halted⟩
  · exact ⟨ht.did, ht.halted⟩
  · rw [Life.ticker, hlast]
    exact ⟨hclosed.did.trans ht.did, hclosed.halted.trans ht.halted⟩
  · exact ⟨ht.did, ht.halted⟩

end Kept

/-- No message a worker finds while its runner is halted has it replace the runner. -/
def KeepsRunner (w : Services) (life : Life) (e : TickWorld) : Prop :=
  life.ticker.runner.halted.isSome → ∀ look, e.looked = .ok look →
    ∀ message ∈ look.messages, replaces w message.command = false

/-- A halted worker touches no further unit as long as no command replaces its runner. -/
theorem halted_worker_stays_halted (w : Services) (life : Life) (es : List TickWorld)
    (hh : life.ticker.runner.halted.isSome) (hc : Along (Life.tick w) (KeepsRunner w) life es) :
    (run (Life.tick w) life es).ticker.did = life.ticker.did ∧
      (run (Life.tick w) life es).ticker.runner.halted.isSome := by
  refine run_inv_of_along
    (fun l : Life => l.ticker.did = life.ticker.did ∧ l.ticker.runner.halted.isSome)
    (fun l e hl hkeeps => ?_) life es ⟨rfl, hh⟩ hc
  cases l with
  | gone t outcome => exact hl
  | running t =>
    have hturn := settle_keeps w t (t.once w e) (once_keeps w t e hl.2 (hkeeps hl.2))
    exact ⟨hturn.1.trans hl.1, by rw [Life.tick, hturn.2]; exact hl.2⟩

section Revived

/-- A worker whose frames are all taken and whose runners are all made. -/
def quietServices : Services where
  pacing := ⟨1000000000, 100000000, 2000000000⟩
  descriptor := fun name => .ok { name := name }
  supported := .of [.kScalar]
  compiled := .of [.kScalar]
  delivery := fun _ => .taken
  made := fun _ => .ok {
    descriptor := { name := "integer" }, decomposition := 0, layout := ⟨1, 64, 64, 64⟩
    startAddress := 4096, slack := 0, memoryLock := {} }

def soloArgs : WorkloadArgs where
  workload := "integer"
  seed := 1
  footprintBytes := 4096
  threads := 1
  decomposition := 0
  isa := .kScalar
  lock := .kTry
  duty := {}
  lineBytes := 64
  physicalPackage := none
  physicalCore := none
  numaNode := none

def spoiltCopy : Stored := ⟨List.replicate kCopyBytes 0, List.length_replicate⟩

/-- A tick whose slice finds two copies of the control state spoilt. -/
def haltingTick : TickWorld where
  now := .ok (1000, 1000)
  slice := fun _ => { strikes := [(0, spoiltCopy), (1, spoiltCopy)] }
  after := .ok 2000

def plainTick (nowNs : Int) : TickWorld where
  now := .ok (nowNs, nowNs)
  after := .ok (nowNs + 1000)

/-- The worker a first runner was prepared for, at its first tick. -/
def soloTicker : Ticker where
  args := soloArgs
  cpus := []
  runner := makeSliceRunner {
    descriptor := { name := "integer" }, base := { seed := some 1 }, duty := {}, lineBytes := 64
    firstIndex := 0, layout := ⟨1, 64, 64, 64⟩, startAddress := 4096, slack := 0, memoryLock := {} }

theorem halted_worker_ends_unworked :
    (run (Life.tick quietServices) (settle quietServices (soloTicker.once quietServices haltingTick))
      [plainTick 3000]).ticker.did = [] := by
  have hhalted : (settle quietServices
      (soloTicker.once quietServices haltingTick)).ticker.runner.halted.isSome = true := by
    decide +kernel
  have hdid : (settle quietServices
      (soloTicker.once quietServices haltingTick)).ticker.did = [] := by decide +kernel
  rw [← hdid]
  refine (halted_worker_stays_halted quietServices _ [plainTick 3000] hhalted ?_).1
  refine ⟨?_, trivial⟩
  intro _ look hlook message hmessage
  cases hlook
  cases hmessage

theorem rebind_revives_halted_worker :
    ∃ start, startWorker quietServices soloArgs [] = .ok start ∧
      (run (Life.tick quietServices) start [haltingTick]).ticker.runner.halted.isSome = true ∧
      (run (Life.tick quietServices) start [haltingTick]).ticker.did = [] ∧
      (run (Life.tick quietServices) start
        [haltingTick,
         { now := .ok (3000, 3000), looked := .ok { messages := [⟨1, .rebind [0]⟩] }
           after := .ok 4000 },
         plainTick 5000]).ticker.did =
        [.generated 0, .generated 0, .computed 0, .checked 0, .generated 0] := by
  refine ⟨_, rfl, ?_, ?_, ?_⟩
  · decide +kernel
  · decide +kernel
  · decide +kernel

end Revived

end LoadForge.Worker
