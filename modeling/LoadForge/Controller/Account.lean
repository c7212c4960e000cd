import LoadForge.Controller.Ingest

namespace LoadForge.Controller

open Framework Verification Worker
open Ipc (Drained FrameError)

/-- What a write to a control pipe came to; a broken pipe is no error. -/
inductive PipeWrite
  | written | gone
  deriving DecidableEq

/-- A message to a worker, at the controller's time. -/
def command (w : Tracked) (what : Command) (pipe : PipeWrite) (nowNs : Int) : Tracked :=
  if w.reaped then w
  else
    match pipe with
    | .gone => w
    | .written =>
      { w with
        nextSequence := w.nextSequence + 1
        commands := { w.commands with sent := w.commands.sent + 1 }
        unanswered := w.unanswered ++ [⟨w.nextSequence, what, nowNs⟩]
        told := match what with
          | .switch change => w.told ++ [bytesOf change.workload]
          | _ => w.told }

def stepAfter (signal : Nat) : StopStep := if signal = sigKill then .kKilled else .kTerminated

/-- What the count of the kernel's OOM kills says of the workers a SIGKILL ended. -/
structure OomFinding where
  attributed : Bool
  note : String
  ruledOut : Bool

/-- Everything that can happen to a worker's account, from its launch to the report. -/
inductive WorkerEvent
  | frame (r : Record)
  | frameFault (fault : FrameError)
  | endOfStream
  | command (what : Command) (pipe : PipeWrite) (nowNs : Int)
  | dropped
  | stopRequested (nowNs : Int)
  | signalled (signal : Nat) (stale : Bool) (nowNs : Int)
  | alreadyExited (signal : Nat)
  | reaped (status : ExitStatus) (note : Option String)
  | heldOpen
  | oomJudged (finding : OomFinding)

/-- What a channel that is open gives; one that is closed is not read. -/
def Tracked.whenOpen (w : Tracked) (f : Tracked → Tracked) : Tracked :=
  if w.channelOpen then f w else w

def takeFrame (shortest : UInt64 → String) (w : Tracked) (r : Record) : Tracked :=
  match ingest shortest w r with
  | .ok w => w
  | .error refusal => refuse w refusal

def Tracked.after (shortest : UInt64 → String) (w : Tracked) : WorkerEvent → Tracked
  | .frame r => w.whenOpen fun w => takeFrame shortest w r
  | .frameFault fault => w.whenOpen fun w => takeFault w fault
  | .endOfStream => w.whenOpen closeChannel
  | .command what pipe nowNs => Controller.command w what pipe nowNs
  | .dropped => { w with commands := { w.commands with dropped := w.commands.dropped + 1 } }
  | .stopRequested nowNs => { w with step := .kRequested, stepSinceNs := nowNs }
  | .signalled signal stale nowNs =>
    { w with
      step := stepAfter signal
      stepSinceNs := nowNs
      evidence := { w.evidence with signalAttempted := some signal, staleWhenSignalled := stale } }
  | .alreadyExited signal =>
    { w with notes := w.notes ++ ["signal " ++ toString signal ++
        " not sent: the worker had already exited"] }
  | .reaped status note =>
    { w with
      evidence := { w.evidence with status := status }, reaped := true
      notes := w.notes ++ note.toList }
  | .heldOpen =>
    w.whenOpen fun w => closeChannel { w with
      evidence := { w.evidence with channelTruncated := true }
      notes := w.notes ++ ["record channel: held open after the worker died"] }
  | .oomJudged finding =>
    { w with
      evidence := { w.evidence with
        oomKillRecorded := finding.attributed
        oomInconclusive := !finding.attributed && !finding.ruledOut }
      notes := w.notes ++ [finding.note] }

def drainEvents (d : Drained) : List WorkerEvent :=
  d.records.map .frame ++
    match d.fault with
    | some fault => [.frameFault fault]
    | none => if d.endOfStream then [.endOfStream] else []

/-- Two states of a worker in which what it reported, and what it is, are the same. -/
structure SameReport (w w' : Tracked) : Prop where
  plan : w'.plan = w.plan
  findings : w'.findings = w.findings
  tally : w'.tally = w.tally
  tallySeen : w'.tallySeen = w.tallySeen

variable (shortest : UInt64 → String)

section

variable (w : Tracked)

section

variable (w' : Tracked)

section

variable (r : Record)

theorem takeErrorRecord_ok (ht : takeErrorRecord shortest w r = .ok w') :
    ∃ found, decode shortest r.payload = .ok found ∧ w.plan.args.isSome = true ∧
      w'.plan = w.plan ∧ w'.tally = w.tally ∧ w'.tallySeen = w.tallySeen ∧
      w'.channelOpen = w.channelOpen ∧
      w'.findings = if w.findings.length < kMaxFindingsKept then w.findings ++ [found]
        else w.findings := by
  unfold takeErrorRecord at ht
  split_ifs at ht with hargs
  have hsome : w.plan.args.isSome = true := by
    simpa [Option.isSome_iff_ne_none, Option.isNone_iff_eq_none] using hargs
  split at ht
  · cases ht
  · rename_i found hdecode
    split at ht
    · cases ht
    · simp only [Except.ok.injEq] at ht
      subst ht
      refine ⟨found, hdecode, hsome, ?_⟩
      split_ifs <;> simp_all

theorem takeTally_ok (ht : takeTally w r = .ok w') :
    ∃ now, decodeTally r.payload = .ok now ∧ w' = { w with tally := now, tallySeen := true } ∧
      ¬(w.tallySeen = true ∧ (now.unitsComputed < w.tally.unitsComputed ∨
        now.oracleBlocks < w.tally.oracleBlocks ∨
        now.integrityChecked < w.tally.integrityChecked)) := by
  unfold takeTally at ht
  split at ht
  · cases ht
  · rename_i now hdecode
    split_ifs at ht with hback
    cases ht
    exact ⟨now, hdecode, rfl, hback⟩

theorem takeMemory_ok (ht : takeMemory w r = .ok w') :
    SameReport w w' ∧ w'.channelOpen = w.channelOpen := by
  unfold takeMemory at ht
  split at ht
  · cases ht
  · split at ht <;> cases ht <;> exact ⟨⟨rfl, rfl, rfl, rfl⟩, rfl⟩

theorem obeyed_same (what : Command) :
    SameReport w (w.obeyed what) ∧ (w.obeyed what).channelOpen = w.channelOpen := by
  cases what <;> exact ⟨⟨rfl, rfl, rfl, rfl⟩, rfl⟩

theorem takeAck_ok (ht : takeAck w r = .ok w') :
    SameReport w w' ∧ w'.channelOpen = w.channelOpen := by
  unfold takeAck at ht
  split at ht
  · cases ht
  · split at ht
    · cases ht
    · split_ifs at ht
      split at ht
      · cases ht
        exact ⟨⟨rfl, rfl, rfl, rfl⟩, rfl⟩
      · rename_i next _ _ _ _ _
        cases ht
        obtain ⟨⟨hplan, hfindings, htally, hseen⟩, hopen⟩ := obeyed_same
          { w with unanswered := _, commands := { w.commands with done := w.commands.done + 1 } }
          next.command
        exact ⟨⟨hplan, hfindings, htally, hseen⟩, hopen⟩

/-- An accepted record changes the findings, or the tally, or neither. -/
theorem ingest_ok (hi : ingest shortest w r = .ok w') :
    (r.type = kErrorRecordFrameType ∧ takeErrorRecord shortest w r = .ok w') ∨
      (r.type = kTallyFrameType ∧ takeTally w r = .ok w') ∨
      (SameReport w w' ∧ w'.channelOpen = w.channelOpen) := by
  unfold ingest at hi
  split_ifs at hi with herr htally hmem hack hfin
  · exact .inl ⟨herr, hi⟩
  · exact .inr (.inl ⟨htally, hi⟩)
  · exact .inr (.inr (takeMemory_ok w w' r hi))
  · exact .inr (.inr (takeAck_ok w w' r hi))
  · cases hi
    exact .inr (.inr ⟨⟨rfl, rfl, rfl, rfl⟩, rfl⟩)
  · cases hi
    exact .inr (.inr ⟨⟨rfl, rfl, rfl, rfl⟩, rfl⟩)

/-- A record closes the channel only by being refused. -/
theorem ingest_channelOpen (hi : ingest shortest w r = .ok w') :
    w'.channelOpen = w.channelOpen := by
  rcases ingest_ok shortest w w' r hi with ⟨-, ht⟩ | ⟨-, ht⟩ | ⟨-, ho⟩
  · obtain ⟨found, -, -, -, -, -, ho, -⟩ := takeErrorRecord_ok shortest w w' r ht
    exact ho
  · obtain ⟨now, -, rfl, -⟩ := takeTally_ok w w' r ht
    rfl
  · exact ho

end

end

theorem run_closed (hc : w.channelOpen = false) (rs : List Record) :
    run (Tracked.after shortest) w (rs.map .frame) = w := by
  induction rs with
  | nil => rfl
  | cons r rs ih => simpa [Tracked.after, Tracked.whenOpen, hc] using ih

theorem drainRecords_eq_run (ho : w.channelOpen = true) (rs : List Record) :
    drainRecords shortest w rs = run (Tracked.after shortest) w (rs.map .frame) := by
  induction rs generalizing w with
  | nil => rfl
  | cons r rs ih =>
    simp only [drainRecords, List.map_cons, run_cons, Tracked.after, Tracked.whenOpen, ho,
      if_true, takeFrame]
    cases hi : ingest shortest w r with
    | ok w' => exact ih w' ((ingest_channelOpen shortest w w' r hi).trans ho)
    | error refusal => exact (run_closed shortest _ rfl rs).symm

theorem drain_eq_run (ho : w.channelOpen = true) (d : Drained) :
    drain shortest w d = run (Tracked.after shortest) w (drainEvents d) := by
  unfold drain drainEvents
  rw [run_append, drainRecords_eq_run shortest w ho]
  generalize run (Tracked.after shortest) w (d.records.map .frame) = v
  cases hv : v.channelOpen with
  | false => cases d.fault <;> cases d.endOfStream <;> simp [hv, Tracked.after, Tracked.whenOpen]
  | true => cases d.fault <;> cases d.endOfStream <;> simp [hv, Tracked.after, Tracked.whenOpen]

/-- An event leaves the report as it is, or a record of an error or a tally is taken into it. -/
theorem after_cases (e : WorkerEvent) :
    SameReport w (w.after shortest e) ∨
      ∃ r, e = .frame r ∧ w.channelOpen = true ∧
        (r.type = kErrorRecordFrameType ∧ takeErrorRecord shortest w r = .ok (w.after shortest e) ∨
          r.type = kTallyFrameType ∧ takeTally w r = .ok (w.after shortest e)) := by
  cases e with
  | frame r =>
    cases ho : w.channelOpen with
    | false =>
      simp only [Tracked.after, Tracked.whenOpen, ho]
      exact .inl ⟨rfl, rfl, rfl, rfl⟩
    | true =>
      simp only [Tracked.after, Tracked.whenOpen, ho, if_true, takeFrame]
      cases hi : ingest shortest w r with
      | error refusal => exact .inl ⟨rfl, rfl, rfl, rfl⟩
      | ok w' =>
        rcases ingest_ok shortest w w' r hi with htaken | htaken | ⟨hsame, -⟩
        · exact .inr ⟨r, rfl, trivial, .inl htaken⟩
        · exact .inr ⟨r, rfl, trivial, .inr htaken⟩
        · exact .inl hsame
  | frameFault | endOfStream | heldOpen =>
    unfold Tracked.after Tracked.whenOpen
    split_ifs <;> exact .inl ⟨rfl, rfl, rfl, rfl⟩
  | command what pipe nowNs =>
    unfold Tracked.after command
    split_ifs
    · exact .inl ⟨rfl, rfl, rfl, rfl⟩
    · cases pipe <;> exact .inl ⟨rfl, rfl, rfl, rfl⟩
  | _ => exact .inl ⟨rfl, rfl, rfl, rfl⟩

end

end LoadForge.Controller
