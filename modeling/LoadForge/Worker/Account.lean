import LoadForge.Worker.SliceContract
import LoadForge.Worker.TickRules

namespace LoadForge.Worker

open Framework Verification Verification.Integrity List

def sumTo (reports : List SliceReport) (count : Nat) : Tally :=
  tallySum ((reports.take count).map SliceReport.tally)

/-- The sum of what all slices reported so far, each counted once. -/
def Ticker.reported (t : Ticker) : Tally := tallySum (t.reports.map SliceReport.tally)

def tallyOf : Sent → Option Tally
  | .tally t => some t
  | _ => none

/-- The tallies sent are sums up to some slice, and never an earlier one. -/
def SentSums (reports : List SliceReport) (sent : List Sent) : Prop :=
  ∃ counts : List Nat, counts.Pairwise (· ≤ ·) ∧ (∀ count ∈ counts, count ≤ reports.length) ∧
    sent.filterMap tallyOf = counts.map (sumTo reports)

/-- What holds of a worker's account at any point of a tick that found some reports. -/
structure Counted (found : List SliceReport) (t : Ticker) : Prop where
  later : found <+: t.reports
  total : t.reported = if t.runnerCounted then t.carried else t.whole
  units : ∃ units, t.did = units.flatten ∧ UnitsFrom 0 units ∧
    t.nextIndex = UInt64.ofNat units.length
  runner : t.runner.nextIndex = t.nextIndex
  sent : SentSums t.reports t.sent

variable {found : List SliceReport}

/-- The parts of a worker that its account is about. -/
structure SameAccount (t t' : Ticker) : Prop where
  runner : t'.runner = t.runner
  nextIndex : t'.nextIndex = t.nextIndex
  carried : t'.carried = t.carried
  runnerCounted : t'.runnerCounted = t.runnerCounted
  did : t'.did = t.did
  reports : t'.reports = t.reports

theorem SameAccount.refl (t : Ticker) : SameAccount t t := ⟨rfl, rfl, rfl, rfl, rfl, rfl⟩

theorem SameAccount.trans {a b c : Ticker} (hab : SameAccount a b) (hbc : SameAccount b c) :
    SameAccount a c :=
  ⟨hbc.runner.trans hab.runner, hbc.nextIndex.trans hab.nextIndex,
    hbc.carried.trans hab.carried, hbc.runnerCounted.trans hab.runnerCounted,
    hbc.did.trans hab.did, hbc.reports.trans hab.reports⟩

theorem SameAccount.reported {t t' : Ticker} (h : SameAccount t t') : t'.reported = t.reported := by
  rw [Ticker.reported, h.reports]
  rfl

theorem Counted.of_same {t : Ticker} (h : Counted found t) (t' : Ticker) (hsame : SameAccount t t')
    (hsent : SentSums t.reports t'.sent) : Counted found t' := by
  refine ⟨?_, ?_, ?_, ?_, ?_⟩
  · rw [hsame.reports]
    exact h.later
  · rw [hsame.reported, h.total, Ticker.whole, Ticker.whole, hsame.runnerCounted, hsame.carried,
      hsame.runner]
  · obtain ⟨units, hdid, hunits, hindex⟩ := h.units
    exact ⟨units, hsame.did.trans hdid, hunits, hsame.nextIndex.trans hindex⟩
  · rw [hsame.runner, hsame.nextIndex]
    exact h.runner
  · rw [hsame.reports]
    exact hsent

/-- A part of a tick that keeps the account, whether the run goes on, ends or leaves. -/
def Turn.Counts (found : List SliceReport) (P : Ticker → Prop) (turn : Turn) : Prop :=
  Counted found turn.ticker ∧
    match turn.step with
    | .ok .kContinue => P turn.ticker
    | .ok .kEnd => turn.ticker.runnerCounted = false
    | .ok .kLeave => turn.ticker.result.tally = turn.ticker.reported
    | .error _ => True

section

variable {P : Ticker → Prop}

theorem Turn.Counts.andThen {Q : Ticker → Prop} {turn : Turn} {next : Ticker → Turn}
    (hturn : turn.Counts found P) (hnext : ∀ t, Counted found t → P t → (next t).Counts found Q) :
    (turn.andThen next).Counts found Q := by
  obtain ⟨hcounted, hstep⟩ := hturn
  rw [Turn.andThen]
  cases hresult : turn.step with
  | error e =>
    refine ⟨hcounted, ?_⟩
    simp only [hresult]
  | ok step =>
    rw [hresult] at hstep
    cases step with
    | kContinue => exact hnext turn.ticker hcounted hstep
    | _ =>
      refine ⟨hcounted, ?_⟩
      simp only [hresult]
      exact hstep

theorem Turn.Counts.mono {Q : Ticker → Prop} {turn : Turn} (hturn : turn.Counts found P)
    (hpq : ∀ t, P t → Q t) : turn.Counts found Q := by
  obtain ⟨hcounted, hstep⟩ := hturn
  refine ⟨hcounted, ?_⟩
  cases hresult : turn.step with
  | error e => trivial
  | ok step =>
    rw [hresult] at hstep
    cases step with
    | kContinue => exact hpq _ hstep
    | kEnd => exact hstep
    | kLeave => exact hstep

section

variable (t : Ticker) (h : Counted found t)
include h

theorem goOn_counts (hp : P t) :
    (Turn.goOn t).Counts found P := ⟨h, hp⟩

theorem fail_counts (stage detail : String) :
    (t.fail stage detail).Counts found P := ⟨h, trivial⟩

theorem ends_counts
    (hlive : t.runnerCounted = false) (reason : StopReason) : (t.ends reason).Counts found P :=
  ⟨h.of_same _ ⟨rfl, rfl, rfl, rfl, rfl, rfl⟩ h.sent, hlive⟩

theorem leave_counts (reason : StopReason) : (t.leave reason).Counts found P := by
  refine ⟨h.of_same _ ⟨rfl, rfl, rfl, rfl, rfl, rfl⟩ h.sent, ?_⟩
  exact h.total.symm

end

end

section Frames

variable (w : Services)

theorem sentSums_append {reports : List SliceReport} {sent : List Sent} (h : SentSums reports sent)
    (frame : Sent) (hframe : ∀ total, tallyOf frame = some total →
      total = sumTo reports reports.length) : SentSums reports (sent ++ [frame]) := by
  obtain ⟨counts, hsorted, hbound, hsent⟩ := h
  cases hkind : tallyOf frame with
  | none =>
    refine ⟨counts, hsorted, hbound, ?_⟩
    rw [filterMap_append, hsent]
    simp [hkind]
  | some total =>
    refine ⟨counts ++ [reports.length], ?_, ?_, ?_⟩
    · rw [pairwise_append]
      refine ⟨hsorted, pairwise_singleton _ _, ?_⟩
      intro count hcount other hother
      rw [mem_singleton.mp hother]
      exact hbound count hcount
    · exact forall_mem_append.mpr ⟨hbound, forall_mem_singleton.mpr (Nat.le_refl _)⟩
    · rw [filterMap_append, hsent, map_append]
      simp [hkind, hframe total hkind]

variable (t : Ticker)

theorem sumTo_all : sumTo t.reports t.reports.length = t.reported := by
  rw [sumTo, take_length]
  rfl

def States (t : Ticker) (frame : Sent) : Prop := ∀ total, tallyOf frame = some total → total = t.reported

section Steps

variable (h : Counted found t)

include h

theorem send_counts (frame : Sent) (hframe : States t frame) :
    (t.send w frame).Counts found (SameAccount t) := by
  have htaken : Counted found (t.note frame true) := by
    apply h.of_same (t.note frame true) ⟨rfl, rfl, rfl, rfl, rfl, rfl⟩
    apply sentSums_append h.sent
    intro total htotal
    rw [sumTo_all]
    exact hframe total htotal
  have hlost : Counted found (t.note frame false) := h.of_same _ ⟨rfl, rfl, rfl, rfl, rfl, rfl⟩ h.sent
  rw [Ticker.send]
  cases w.delivery t.frames with
  | taken => exact goOn_counts _ htaken ⟨rfl, rfl, rfl, rfl, rfl, rfl⟩
  | controllerGone => exact leave_counts _ hlost _
  | failed e => exact ⟨hlost, trivial⟩

theorem sendAll_counts (frames : List Sent)
    (hframes : ∀ frame ∈ frames, States t frame) :
    (t.sendAll w frames).Counts found (SameAccount t) := by
  induction frames generalizing t with
  | nil => exact goOn_counts t h (.refl t)
  | cons frame rest ih =>
    have hfirst := send_counts w t h frame (hframes frame (by simp))
    refine hfirst.andThen ?_
    intro t' ht' hsame
    have hrest := ih t' ht' (by
      intro other hother total htotal
      rw [hsame.reported]
      exact hframes other (by simp [hother]) total htotal)
    exact hrest.mono fun t'' hsame' => hsame.trans hsame'

theorem sendReport_counts (report : SliceReport) (total : Tally)
    (htotal : total = t.reported) : (t.sendReport w report total).Counts found (SameAccount t) := by
  apply sendAll_counts w t h
  intro frame hframe stated hstated
  rcases mem_append.mp hframe with hrecord | htally
  · obtain ⟨record, -, rfl⟩ := mem_map.mp hrecord
    cases hstated
  · rw [mem_singleton.mp htally] at hstated
    cases hstated
    exact htotal

theorem reply_counts (sequence : UInt32) (status : AckStatus)
    (detail : String) : (t.reply w sequence status detail).Counts found (SameAccount t) :=
  send_counts w t h _ fun _ hstated => by cases hstated

theorem tellMemory_counts : (t.tellMemory w).Counts found (SameAccount t) :=
  send_counts w t h _ fun _ hstated => by cases hstated

theorem tellMemory_reply_counts (hlive : t.runnerCounted = false)
    (sequence : UInt32) (status : AckStatus) (detail : String) :
    ((t.tellMemory w).andThen fun t => t.reply w sequence status detail).Counts found
      fun t' => t'.runnerCounted = false := by
  refine (tellMemory_counts w t h).andThen ?_
  intro t' ht' hsame
  refine (reply_counts w t' ht' _ _ _).mono ?_
  intro t'' hsame'
  rw [hsame'.runnerCounted, hsame.runnerCounted, hlive]

theorem closeRunner_counts (hlive : t.runnerCounted = false)
    (runOver : Bool) :
    (t.closeRunner w runOver).Counts found fun t' => t'.runnerCounted = true := by
  rw [Ticker.closeRunner, finish]
  split_ifs with hfinished
  · exact fail_counts _ (h.of_same _ ⟨rfl, rfl, rfl, rfl, rfl, rfl⟩ h.sent) _ _
  · have hclosed : Counted found (t.closed { t.runner with finished := true } t.runner.nextIndex) := by
      refine ⟨h.later, ?_, ?_, rfl, h.sent⟩
      · have htotal := h.total
        rw [hlive] at htotal
        exact htotal
      · obtain ⟨units, hdid, hunits, hindex⟩ := h.units
        exact ⟨units, hdid, hunits, h.runner.trans hindex⟩
    have hsent := sendReport_counts w _ hclosed (keepTrueStatements
      { records := zeroStatements t.runner, nextIndex := t.runner.nextIndex }
      (t.closed { t.runner with finished := true } t.runner.nextIndex).carried runOver)
      (t.closed { t.runner with finished := true } t.runner.nextIndex).carried hclosed.total.symm
    exact hsent.mono fun t' hsame => hsame.runnerCounted

theorem install_counted (hclosed : t.runnerCounted = true)
    (answer : Except WorkerError Made) (args next : WorkloadArgs) (cpus cpus' : List UInt32)
    (runner : IntegrityRunner) (hmade : prepare answer args cpus t.nextIndex = .ok runner) :
    Counted found (t.prepared.install runner next cpus') := by
  have hrunner : runner.total = {} ∧ runner.nextIndex = t.nextIndex := by
    cases answer with
    | error e => cases hmade
    | ok made =>
      cases hmade
      exact ⟨rfl, rfl⟩
  have htotal := h.total
  rw [hclosed] at htotal
  refine ⟨h.later, ?_, h.units, hrunner.2, h.sent⟩
  show t.reported = t.carried.add runner.total
  rw [hrunner.1, Tally.add_empty]
  exact htotal

theorem restore_counts (hclosed : t.runnerCounted = true) (sequence : UInt32)
    (next : WorkloadArgs) (refusal : String) :
    (t.restore w sequence next refusal).Counts found fun t' => t'.runnerCounted = false := by
  have hprepared : Counted found t.prepared := h.of_same _ ⟨rfl, rfl, rfl, rfl, rfl, rfl⟩ h.sent
  rw [Ticker.restore]
  cases hmade : prepare (w.made t.prepares) t.args t.cpus t.nextIndex with
  | error e => exact fail_counts t.prepared hprepared _ _
  | ok runner =>
    have hinstalled := install_counted t h hclosed _ _ t.args _ t.cpus runner hmade
    exact tellMemory_reply_counts w _ hinstalled rfl _ _ _

theorem reconfigure_counts (hlive : t.runnerCounted = false)
    (sequence : UInt32) (next : WorkloadArgs) (cpus : List UInt32) :
    (t.reconfigure w sequence next cpus).Counts found fun t' => t'.runnerCounted = false := by
  refine (closeRunner_counts w t h hlive false).andThen ?_
  intro t ht hclosed
  cases hmade : prepare (w.made t.prepares) next cpus t.nextIndex with
  | error e =>
    have hprepared : Counted found t.prepared := ht.of_same _ ⟨rfl, rfl, rfl, rfl, rfl, rfl⟩ ht.sent
    exact restore_counts w t.prepared hprepared hclosed sequence next e.describe
  | ok runner =>
    have hinstalled := install_counted t ht hclosed _ _ next _ cpus runner hmade
    exact tellMemory_reply_counts w _ hinstalled rfl _ _ _

theorem handle_counts (hlive : t.runnerCounted = false)
    (message : ControlMessage) (nowNs : Int) :
    (t.handle w message nowNs).Counts found fun t' => t'.runnerCounted = false := by
  have hkept : ∀ t', SameAccount t t' → t'.runnerCounted = false := by
    intro t' hsame
    rw [hsame.runnerCounted]
    exact hlive
  rw [Ticker.handle]
  cases message.command with
  | stop =>
    refine (reply_counts w t h _ _ _).andThen ?_
    intro t' ht' hsame
    exact ends_counts t' ht' (hkept t' hsame) _
  | pause =>
    have hpaused : Counted found (t.setPaused true) := h.of_same _ ⟨rfl, rfl, rfl, rfl, rfl, rfl⟩ h.sent
    exact (reply_counts w _ hpaused _ _ _).mono fun t' hsame => hsame.runnerCounted.trans hlive
  | resume =>
    have hresumed : Counted found (t.setPaused false) := h.of_same _ ⟨rfl, rfl, rfl, rfl, rfl, rfl⟩ h.sent
    exact (reply_counts w _ hresumed _ _ _).mono fun t' hsame => hsame.runnerCounted.trans hlive
  | setDuty duty =>
    have hset : Counted found (t.setDuty duty nowNs) := h.of_same _ ⟨rfl, rfl, rfl, rfl, rfl, rfl⟩ h.sent
    exact (reply_counts w _ hset _ _ _).mono fun t' hsame => hsame.runnerCounted.trans hlive
  | rebind cpus => exact reconfigure_counts w t h hlive _ _ _
  | switch change =>
    cases hdescribed : w.descriptor change.workload with
    | error e =>
      simp only [hdescribed]
      exact (reply_counts w t h _ _ _).mono hkept
    | ok described =>
      simp only [hdescribed]
      exact reconfigure_counts w t h hlive _ _ _

/-- Every vote of the slice that decides gives the index the runner is at. -/
def ContractKept (t : Ticker) (e : TickWorld) : Prop :=
  ∀ look, e.looked = .ok look → look.messages = [] → t.runner.finished = false →
    t.runner.halted = none →
      EachUnit IndexKept e.slice t.units.toNat 0 ⟨t.runner, {}, [], true⟩

instance (t : Ticker) (e : TickWorld) : Decidable (ContractKept t e) :=
  match hlook : e.looked with
  | .error _ => isTrue (by
      intro look h
      rw [hlook] at h
      cases h)
  | .ok look => decidable_of_iff (look.messages = [] → t.runner.finished = false →
      t.runner.halted = none → EachUnit IndexKept e.slice t.units.toNat 0 ⟨t.runner, {}, [], true⟩) (by
      constructor
      · intro h other hother
        rw [hlook] at hother
        cases hother
        exact h
      · intro h
        exact h look hlook)

end Steps

theorem sumTo_append (reports more : List SliceReport) (count : Nat) (h : count ≤ reports.length) :
    sumTo (reports ++ more) count = sumTo reports count := by
  rw [sumTo, take_append_of_le_length h]
  rfl

theorem SentSums.grow {reports : List SliceReport} {sent : List Sent} (h : SentSums reports sent)
    (more : List SliceReport) : SentSums (reports ++ more) sent := by
  obtain ⟨counts, hsorted, hbound, hsent⟩ := h
  refine ⟨counts, hsorted, ?_, ?_⟩
  · intro count hcount
    have hle := hbound count hcount
    rw [length_append]
    omega
  · rw [hsent]
    apply map_congr_left
    intro count hcount
    exact (sumTo_append reports more count (hbound count hcount)).symm

theorem slice_counts (h : Counted found t) (hlive : t.runnerCounted = false)
    (nowNs busyRemainingNs : Int) (e : TickWorld)
    (hkept : t.runner.finished = false → t.runner.halted = none →
      EachUnit IndexKept e.slice t.units.toNat 0 ⟨t.runner, {}, [], true⟩) :
    (t.slice w nowNs busyRemainingNs e).Counts found fun t' => t'.runnerCounted = false := by
  obtain ⟨units, hdid, hunits, hindex⟩ := h.units
  rcases runSlice_units t.runner t.units e.slice units.length (h.runner.trans hindex) hkept with
    ⟨stopped, hrun⟩ | ⟨report, blocks, hreport, hblocks, hfrom, hnext, hstated, htotal⟩
  · have hran : t.ran (runSlice t.runner t.units e.slice) = t := by
      rw [hrun]
      simp [Ticker.ran, Except.toOption]
    have hnoted : Counted found { t with result := { t.result with note := stopped.detail } } :=
      h.of_same _ ⟨rfl, rfl, rfl, rfl, rfl, rfl⟩ h.sent
    simp only [Ticker.slice, hran]
    rw [hrun]
    exact ends_counts _ hnoted hlive _
  · have hran : Counted found { t.ran (runSlice t.runner t.units e.slice) with
        nextIndex := report.nextIndex } := by
      refine ⟨h.later.trans (prefix_append _ _), ?_, ⟨units ++ blocks, ?_, ?_, ?_⟩, ?_, ?_⟩
      · have hbefore := h.total
        rw [hlive] at hbefore
        show tallySum ((t.reports ++ (runSlice t.runner t.units e.slice).report.toOption.toList).map
          SliceReport.tally) = if t.runnerCounted then t.carried
            else t.carried.add (runSlice t.runner t.units e.slice).runner.total
        rw [hlive, hreport, htotal, map_append, tallySum_append]
        show t.reported.add (report.tally.add {}) = t.carried.add (t.runner.total.add report.tally)
        rw [hbefore, Tally.add_empty, ← Tally.add_assoc]
        rfl
      · rw [flatten_append, ← hdid, ← hblocks]
        rfl
      · rw [unitsFrom_append, Nat.zero_add]
        exact ⟨hunits, hfrom⟩
      · rw [length_append]
        exact hstated
      · exact hnext.trans hstated.symm
      · exact h.sent.grow _
    have hwhole : (Ticker.whole { t.ran (runSlice t.runner t.units e.slice) with
        nextIndex := report.nextIndex }) = Ticker.reported { t.ran
          (runSlice t.runner t.units e.slice) with nextIndex := report.nextIndex } := by
      have hsum := hran.total
      have hflag : (Ticker.runnerCounted { t.ran (runSlice t.runner t.units e.slice) with
        nextIndex := report.nextIndex }) = false := hlive
      rw [hflag] at hsum
      exact hsum.symm
    simp only [Ticker.slice, hreport]
    refine (sendReport_counts w _ hran report _ hwhole).andThen ?_
    intro t' ht' hsame
    have hlive' : t'.runnerCounted = false := hsame.runnerCounted.trans hlive
    cases e.after with
    | error detail => exact fail_counts t' ht' _ _
    | ok afterNs =>
      exact goOn_counts _ (ht'.of_same _ ⟨rfl, rfl, rfl, rfl, rfl, rfl⟩ ht'.sent) hlive'

theorem once_counts (h : Counted found t) (hlive : t.runnerCounted = false) (e : TickWorld)
    (hkept : ContractKept t e) :
    (t.once w e).Counts found fun t' => t'.runnerCounted = false := by
  have hbeat : ∀ elapsedNs, Counted found (t.beat elapsedNs) := fun elapsedNs =>
    h.of_same _ ⟨rfl, rfl, rfl, rfl, rfl, rfl⟩ h.sent
  refine once_of ⟨⟨h, hlive⟩, fun elapsedNs => ⟨hbeat elapsedNs, hlive⟩, ?_, ?_, ?_, ?_, ?_⟩
  · intro t error ht
    exact ⟨ht.1, trivial⟩
  · intro t reason ht
    exact ends_counts t ht.1 ht.2 reason
  · intro t reason ht
    exact leave_counts t ht.1 reason
  · intro look hlook message hmessage t nowNs ht
    exact handle_counts w t ht.1 ht.2 message nowNs
  · intro look hlook hnone elapsedNs nowNs busyRemainingNs
    exact slice_counts w _ (hbeat elapsedNs) hlive nowNs _ e (hkept look hlook hnone)

end Frames

end LoadForge.Worker
