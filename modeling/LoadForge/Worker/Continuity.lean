import Mathlib.Data.UInt
import LoadForge.Worker.Account
import LoadForge.Worker.Halting

namespace LoadForge.Worker

open Framework Verification Verification.Integrity List Ticker

section Lives

variable (w : Services)

/-- A live runner not yet counted, or an outcome with the sum of all reports. -/
def Life.Counted (found : List SliceReport) : Life → Prop
  | .running t => Worker.Counted found t ∧ t.runnerCounted = false
  | .gone t outcome =>
    Worker.Counted found t ∧ ∀ result, outcome = .ok result → result.tally = t.reported

theorem send_frame (t : Ticker) (frame : Sent) :
    (t.send w frame).ticker.runnerCounted = t.runnerCounted ∧
      (t.send w frame).ticker.reports = t.reports := by
  rw [send]
  cases w.delivery t.frames with
  | taken => exact ⟨rfl, rfl⟩
  | controllerGone => exact ⟨rfl, rfl⟩
  | failed e => exact ⟨rfl, rfl⟩

theorem sendAll_runnerCounted (t : Ticker) (frames : List Sent) :
    (t.sendAll w frames).ticker.runnerCounted = t.runnerCounted := by
  induction frames generalizing t with
  | nil => rfl
  | cons frame rest ih =>
    have hfirst := (send_frame w t frame).1
    rw [sendAll, Turn.andThen]
    split
    · rw [ih]
      exact hfirst
    · exact hfirst

theorem closeRunner_runnerCounted (t : Ticker) (runOver : Bool) (step : TickStep)
    (h : (t.closeRunner w runOver).step = .ok step) :
    (t.closeRunner w runOver).ticker.runnerCounted = true := by
  rw [closeRunner, finish] at h ⊢
  split_ifs at h ⊢
  · cases h
  · exact sendAll_runnerCounted w _ _

variable {found : List SliceReport}

theorem settle_counted (turn : Turn) (h : turn.Counts found fun t => t.runnerCounted = false) :
    (settle w turn).Counted found := by
  obtain ⟨hcounted, hstep⟩ := h
  rw [settle]
  cases hresult : turn.step with
  | error e => exact ⟨hcounted, fun _ ho => by cases ho⟩
  | ok step =>
    rw [hresult] at hstep
    cases step with
    | kContinue => exact ⟨hcounted, hstep⟩
    | kLeave =>
      refine ⟨hcounted, ?_⟩
      intro result hresult
      cases hresult
      exact hstep
    | kEnd =>
      have hclosed := closeRunner_counts w turn.ticker hcounted hstep true
      simp only [conclude]
      cases hlast : (turn.ticker.closeRunner w true).step with
      | error e => exact ⟨hclosed.1, fun _ ho => by cases ho⟩
      | ok last =>
        refine ⟨hclosed.1, ?_⟩
        intro result hresult
        cases hresult
        have hflag := closeRunner_runnerCounted w turn.ticker true last hlast
        have htotal := hclosed.1.total
        rw [hflag] at htotal
        exact htotal.symm

/-- The slice of a worker's tick keeps the contract of its runner. -/
def Life.ContractKept : Life → TickWorld → Prop
  | .running t, e => Worker.ContractKept t e
  | .gone _ _, _ => True

instance (life : Life) (e : TickWorld) : Decidable (life.ContractKept e) :=
  match life with
  | .running t => inferInstanceAs (Decidable (Worker.ContractKept t e))
  | .gone _ _ => isTrue trivial

theorem tick_counted (life : Life) (e : TickWorld) (h : life.Counted found)
    (hkept : life.ContractKept e) : (life.tick w e).Counted found := by
  cases life with
  | gone t outcome => exact h
  | running t => exact settle_counted w _ (once_counts w t h.1 h.2 e hkept)

theorem start_counted (args : WorkloadArgs) (cpus : List UInt32) (life : Life)
    (h : startWorker w args cpus = .ok life) : life.Counted [] := by
  rw [startWorker] at h
  cases hmade : prepare (w.made 0) args cpus 0 with
  | error e =>
    rw [hmade] at h
    cases h
  | ok runner =>
    rw [hmade] at h
    have hrunner : runner.total = {} ∧ runner.nextIndex = 0 := by
      cases hanswer : w.made 0 with
      | error e =>
        rw [hanswer] at hmade
        cases hmade
      | ok made =>
        rw [hanswer] at hmade
        cases hmade
        exact ⟨rfl, rfl⟩
    have hfirst : Counted [] ({ args, cpus, runner, prepares := 1 } : Ticker) := by
      refine ⟨ nil_prefix, ?_, ⟨[], rfl, trivial, rfl⟩, hrunner.2, ⟨[], ?_, ?_, rfl⟩⟩
      · show tallySum [] = Tally.add {} runner.total
        rw [hrunner.1]
        rfl
      · exact Pairwise.nil
      · exact fun _ hcount => absurd hcount not_mem_nil
    have htold := tellMemory_counts w _ hfirst
    have hreports := (send_frame w ({ args, cpus, runner, prepares := 1 } : Ticker)
      (.memory runner.memoryLock)).2
    simp only [Except.map, Except.ok.injEq] at h
    rw [← h]
    cases hstep : (tellMemory w ({ args, cpus, runner, prepares := 1 } : Ticker)).step with
    | error e => exact ⟨htold.1, fun _ ho => by cases ho⟩
    | ok step =>
      have hgone : ∀ result : VerifiedOutcome, result.tally = {} → result.tally =
          (tellMemory w ({ args, cpus, runner, prepares := 1 } : Ticker)).ticker.reported := by
        intro result htally
        rw [htally, reported, tellMemory, hreports]
        rfl
      cases step with
      | kContinue =>
        obtain ⟨hcounted, hsame⟩ := htold
        rw [hstep] at hsame
        exact ⟨hcounted, hsame.runnerCounted⟩
      | _ =>
        refine ⟨htold.1, ?_⟩
        intro result hresult
        cases hresult
        exact hgone _ rfl

/-- The progress a worker publishes in the heartbeat of a tick, when it does. -/
def Life.heartbeat : Life → TickWorld → List UInt64
  | .running t, e =>
    match e.now, e.published with
    | .ok times, .ok () => [(t.beat times.2).result.progress]
    | _, _ => []
  | .gone _ _, _ => []

def heartbeats : Life → List TickWorld → List UInt64
  | _, [] => []
  | life, e :: es => life.heartbeat e ++ heartbeats (life.tick w e) es

theorem Life.Counted.here {life : Life} (h : life.Counted found) :
    life.Counted life.ticker.reports := by
  cases life with
  | running t => exact ⟨{ h.1 with later := prefix_rfl }, h.2⟩
  | gone t outcome => exact ⟨{ h.1 with later := prefix_rfl }, h.2⟩

theorem Life.Counted.later {life : Life} (h : life.Counted found) :
    found <+: life.ticker.reports := by
  cases life with
  | running t => exact h.1.later
  | gone t outcome => exact h.1.later

theorem sumTo_later {reports more : List SliceReport} (h : reports <+: more) :
    sumTo more reports.length = tallySum (reports.map SliceReport.tally) := by
  obtain ⟨rest, rfl⟩ := h
  rw [sumTo_append reports rest _ (Nat.le_refl _), sumTo, take_length]

theorem heartbeat_sum (life : Life) (e : TickWorld) (h : life.Counted found)
    (more : List SliceReport) (hmore : life.ticker.reports <+: more) :
    life.heartbeat e = [] ∨
      life.heartbeat e = [(sumTo more life.ticker.reports.length).unitsComputed] := by
  cases life with
  | gone t outcome => exact .inl rfl
  | running t =>
    have htotal := h.1.total
    rw [h.2] at htotal
    have hwhole : t.whole.unitsComputed = (sumTo more t.reports.length).unitsComputed := by
      have hsum : sumTo more t.reports.length = t.reported := sumTo_later hmore
      rw [hsum]
      exact (congrArg Tally.unitsComputed htotal).symm
    rw [Life.heartbeat]
    cases e.now with
    | error detail => exact .inl rfl
    | ok times =>
      cases e.published with
      | error detail => exact .inl rfl
      | ok _ =>
        refine .inr ?_
        show [t.whole.unitsComputed] = _
        rw [hwhole]
        rfl

theorem heartbeats_sums (es : List TickWorld) (life : Life) (found : List SliceReport)
    (h : life.Counted found) (hkept : Along (Life.tick w) Life.ContractKept life es) :
    ∃ counts : List Nat, counts.Pairwise (· ≤ ·) ∧
      (∀ count ∈ counts, life.ticker.reports.length ≤ count ∧
        count ≤ (run (Life.tick w) life es).ticker.reports.length) ∧
      heartbeats w life es = counts.map fun count =>
        (sumTo (run (Life.tick w) life es).ticker.reports count).unitsComputed := by
  induction es generalizing life found with
  | nil => exact ⟨[], Pairwise.nil, fun _ hcount => absurd hcount not_mem_nil, rfl⟩
  | cons e es ih =>
    obtain ⟨hfirst, hrest⟩ := hkept
    have hnext := tick_counted w life e h.here hfirst
    have hgrown := hnext.later
    have hlast : (run (Life.tick w) (life.tick w e) es).Counted (life.tick w e).ticker.reports :=
      run_inv_of_along (fun life' => life'.Counted (life.tick w e).ticker.reports)
        (fun life' e' hlife hlifekept => tick_counted w life' e' hlife hlifekept) _ es hnext.here
        hrest
    obtain ⟨counts, hsorted, hbounds, hbeats⟩ := ih (life.tick w e) _ hnext hrest
    have hlength := hgrown.length_le
    have hlastLength := hlast.later.length_le
    rw [run_cons, heartbeats, hbeats]
    rcases heartbeat_sum life e h _ (hgrown.trans hlast.later) with hnone | hone
    · refine ⟨counts, hsorted, ?_, ?_⟩
      · intro count hcount
        have hbound := hbounds count hcount
        omega
      · rw [hnone, nil_append]
    · refine ⟨life.ticker.reports.length :: counts, ?_, ?_, ?_⟩
      · rw [pairwise_cons]
        refine ⟨?_, hsorted⟩
        intro count hcount
        have hbound := hbounds count hcount
        omega
      · intro count hcount
        rcases mem_cons.mp hcount with rfl | hcount
        · omega
        · have hbound := hbounds count hcount
          omega
      · rw [hone, map_cons]
        rfl

end Lives

/-- The counters hold what was reported: no sum over the slices passes 64 bits. -/
def Fits (reports : List SliceReport) : Prop :=
  ∀ counter, (reports.map fun report => (report.tally.get counter).toNat).sum < 2 ^ 64

theorem sumTo_le (reports : List SliceReport) (hfits : Fits reports) (a b : Nat) (hab : a ≤ b)
    (counter : Counter) : (sumTo reports a).get counter ≤ (sumTo reports b).get counter := by
  have hsum : ∀ count, (sumTo reports count).get counter = UInt64.ofNat
      ((reports.take count).map fun report => (report.tally.get counter).toNat).sum := by
    intro count
    exact tallySum_get counter SliceReport.tally _ (fun report => UInt64.ofNat_toNat.symm) _
  have hsplit : ∀ small large, small ≤ large →
      ((reports.take small).map fun report => (report.tally.get counter).toNat).sum ≤
        ((reports.take large).map fun report => (report.tally.get counter).toNat).sum := by
    intro small large hle
    obtain ⟨rest, hrest⟩ : reports.take small <+: reports.take large := take_prefix_take_left hle
    rw [← hrest, map_append, sum_append]
    omega
  have hall : ∀ count, ((reports.take count).map
      fun report => (report.tally.get counter).toNat).sum < 2 ^ 64 := by
    intro count
    have hle := hsplit count (max count reports.length) (by omega)
    rw [take_of_length_le (Nat.le_max_right count reports.length)] at hle
    have hfit := hfits counter
    omega
  rw [UInt64.le_iff_toNat_le, hsum, hsum, UInt64.toNat_ofNat_of_lt' (hall a),
    UInt64.toNat_ofNat_of_lt' (hall b)]
  exact hsplit a b hab

/-- The units are 0, 1, 2 and so on, the total is the sum of the reports, and nothing told goes
down while the counters hold. -/
structure ContinuousAccount (w : Services) (start : Life) (es : List TickWorld) : Prop where
  units : ∃ units, (run (Life.tick w) start es).ticker.did = units.flatten ∧ UnitsFrom 0 units
  account : ∀ t, run (Life.tick w) start es = .running t →
    t.carried.add t.runner.total = tallySum (t.reports.map SliceReport.tally)
  progress : Fits (run (Life.tick w) start es).ticker.reports →
    (heartbeats w start es).Pairwise (· ≤ ·)
  tallies : Fits (run (Life.tick w) start es).ticker.reports →
    ((run (Life.tick w) start es).ticker.sent.filterMap tallyOf).Pairwise
      fun before after => ∀ counter, before.get counter ≤ after.get counter
  outcome : ∀ t result, run (Life.tick w) start es = .gone t (.ok result) →
    result.tally = tallySum (t.reports.map SliceReport.tally)

/-- A worker's account is continuous across replacements of its runner, when runners keep their
contract. -/
theorem worker_account_is_continuous (w : Services) (args : WorkloadArgs) (cpus : List UInt32)
    (start : Life) (hstart : startWorker w args cpus = .ok start) (es : List TickWorld)
    (hkept : Along (Life.tick w) Life.ContractKept start es) : ContinuousAccount w start es := by
  have hfirst := start_counted w args cpus start hstart
  have hlast : (run (Life.tick w) start es).Counted [] :=
    run_inv_of_along (fun life => life.Counted [])
      (fun life e hlife hlifekept => tick_counted w life e hlife hlifekept) start es hfirst hkept
  have hcounted : Counted [] (run (Life.tick w) start es).ticker := by
    cases hlife : run (Life.tick w) start es with
    | running t =>
      rw [hlife] at hlast
      exact hlast.1
    | gone t outcome =>
      rw [hlife] at hlast
      exact hlast.1
  refine ⟨?_, ?_, ?_, ?_, ?_⟩
  · obtain ⟨units, hdid, hunits, -⟩ := hcounted.units
    exact ⟨units, hdid, hunits⟩
  · intro t ht
    rw [ht] at hlast
    have htotal := hlast.1.total
    rw [hlast.2] at htotal
    exact htotal.symm
  · intro hfits
    obtain ⟨counts, hsorted, -, hbeats⟩ := heartbeats_sums w es start [] hfirst hkept
    rw [hbeats, pairwise_map]
    exact hsorted.imp fun hle => sumTo_le _ hfits _ _ hle .unitsComputed
  · intro hfits
    obtain ⟨counts, hsorted, -, hsent⟩ := hcounted.sent
    rw [hsent, pairwise_map]
    exact hsorted.imp fun hle counter => sumTo_le _ hfits _ _ hle counter
  · intro t result ht
    rw [ht] at hlast
    exact hlast.2 result rfl

section Replaced

/-- A tick that runs a slice whose oracle compared some blocks. -/
def slicingTick (nowNs : Int) (blocks : UInt64) : TickWorld where
  now := .ok (nowNs, nowNs)
  slice := fun _ => { verdict := .ok (.agreement blocks) }
  after := .ok (nowNs + 1000)

def messageTick (nowNs : Int) (command : Command) : TickWorld where
  now := .ok (nowNs, nowNs)
  looked := .ok { messages := [⟨1, command⟩] }
  after := .ok (nowNs + 1000)

def replacedRun (blocks : UInt64) : List TickWorld :=
  [slicingTick 1000 blocks, messageTick 3000 (.rebind [0]), slicingTick 5000 2,
   messageTick 7000 .stop]

theorem replaced_runner_is_continuous :
    ∃ start, startWorker quietServices soloArgs [] = .ok start ∧
      ContinuousAccount quietServices start (replacedRun 1) := by
  refine ⟨_, rfl, ?_⟩
  exact worker_account_is_continuous quietServices soloArgs [] _ rfl (replacedRun 1)
    (by decide +kernel)

/-- The blocks of two runners together pass 64 bits, and the second tally is below the first. -/
theorem wrapped_blocks_go_down :
    ∃ start, startWorker quietServices soloArgs [] = .ok start ∧
      Along (Life.tick quietServices) Life.ContractKept start (replacedRun (2 ^ 64 - 1)) ∧
      ((run (Life.tick quietServices) start (replacedRun (2 ^ 64 - 1))).ticker.sent.filterMap
        tallyOf).map Tally.oracleBlocks =
        [18446744073709551615, 18446744073709551615, 1, 1] := by
  refine ⟨_, rfl, ?_, ?_⟩
  · decide +kernel
  · decide +kernel

end Replaced

end LoadForge.Worker
