import LoadForge.Controller.ControlLink
import LoadForge.Worker.Continuity

namespace LoadForge.Controller

open Framework Verification Worker List ControlMessage

def ackRecord (ack : ControlAck) : Record := (Sent.ack ack).carried

def fitsFrame (r : Record) : Bool := r.payload.length ≤ Ipc.kMaxPayloadBytes

theorem wire_eq (rs : List Record) : rs.flatMap wire = (rs.filter fitsFrame).flatMap Ipc.frame := by
  induction rs with
  | nil => rfl
  | cons r rs ih =>
    rw [flatMap_cons, ih, filter_cons]
    by_cases hfits : r.payload.length ≤ Ipc.kMaxPayloadBytes
    · have hwire : wire r = Ipc.frame r := by
        rw [wire, Ipc.encode, if_neg (Nat.not_lt.mpr hfits)]
        rfl
      rw [hwire, fitsFrame, decide_eq_true hfits, if_pos rfl, flatMap_cons]
    · have hwire : wire r = [] := by
        rw [wire, Ipc.encode, if_pos (Nat.lt_of_not_le hfits)]
        rfl
      rw [hwire, fitsFrame, decide_eq_false hfits]
      rfl

theorem awaits_wire {source : Ipc.RecordSource} {pipe : List UInt8} {pending : List Record}
    (h : source.Awaits pipe pending) (rs : List Record) :
    source.Awaits (pipe ++ rs.flatMap wire) (pending ++ rs.filter fitsFrame) := by
  rw [wire_eq]
  apply h.write
  intro r hr
  exact of_decide_eq_true (mem_filter.mp hr).2

theorem ackRecord_fits (ack : ControlAck) (hd : ack.detail.length ≤ kMaxTextBytes) :
    fitsFrame (ackRecord ack) = true := by
  have hmax : kMaxTextBytes = 1024 := rfl
  have hlen : (ackRecord ack).payload.length ≤ Ipc.kMaxPayloadBytes := by
    simp [ackRecord, Sent.carried, encodeAck, putText, leBytes_length, Ipc.kMaxPayloadBytes]
    omega
  exact decide_eq_true hlen

theorem acks_of_frames (frames : List Sent)
    (hd : ∀ ack ∈ frames.filterMap ackOf, ack.detail.length ≤ kMaxTextBytes) :
    ((frames.map Sent.carried).filter fitsFrame).filter isAck =
      (frames.filterMap ackOf).map ackRecord := by
  induction frames with
  | nil => rfl
  | cons frame rest ih =>
    cases hframe : ackOf frame with
    | none =>
      have hother : isAck frame.carried = false := by
        cases frame with
        | ack a => cases hframe
        | _ => rfl
      rw [filterMap_cons, hframe] at hd ⊢
      rw [map_cons, filter_cons]
      split_ifs
      · rw [filter_cons, hother]
        exact ih hd
      · exact ih hd
    | some ack =>
      have hcarried : frame.carried = ackRecord ack := by
        cases frame with
        | ack a =>
          cases hframe
          rfl
        | _ => cases hframe
      rw [filterMap_cons, hframe] at hd ⊢
      have hfits := ackRecord_fits ack (hd ack (by simp))
      have hrest := ih fun a ha => hd a (by simp [ha])
      rw [map_cons, filter_cons, hcarried, hfits, if_pos rfl, filter_cons, map_cons, ← hrest]
      rfl

/-- The two ends, with the messages answered but not read and those not yet handled. -/
structure Link.Synced (s : Link) (flying : List (ControlMessage × ControlAck))
    (queued : List ControlMessage) : Prop where
  mirror : Mirror.Agrees obey ⟨s.controller.view,
    s.controller.unanswered.map Unanswered.message, flying, queued, s.worker.ticker.view⟩
  fits : ∀ p ∈ flying, p.2.sequence = p.1.sequence ∧ p.2.detail.length ≤ kMaxTextBytes
  balanced : s.controller.Balanced
  history : s.written = s.handled ++ queued
  answered : s.worker.ticker.acks.map ControlAck.sequence =
    s.handled.map ControlMessage.sequence
  stopLast : ∀ m ∈ s.handled.dropLast, m.command ≠ .stop
  listening : isOver s.worker = false → (∀ m ∈ s.handled, m.command ≠ .stop) ∧
    (∀ m ∈ queued, Sendable m) ∧
    s.control.Awaits s.toWorker (queued.map ControlMessage.carried)
  channel : s.controller.channelOpen = true → ∃ pending,
    s.channel.Awaits s.toController pending ∧
      pending.filter isAck = flying.map fun p => ackRecord p.2
  unset : (∀ m ∈ s.handled, ∀ duty, m.command ≠ .setDuty duty) →
    s.worker.ticker.view.idleNs = 0

variable {s : Link} {flying : List (ControlMessage × ControlAck)} {queued : List ControlMessage}

section

variable (h : s.Synced flying queued)
include h

theorem Link.Synced.sameControl (w : Tracked)
    (hw : SameControl s.controller w) (ho : w.channelOpen = true → s.controller.channelOpen = true) :
    ({ s with controller := w } : Link).Synced flying queued := by
  refine ⟨?_, h.fits, hw.balanced h.balanced, h.history, h.answered, h.stopLast, h.listening, ?_,
    h.unset⟩
  · show Mirror.Agrees obey ⟨w.view, w.unanswered.map Unanswered.message, _, _, _⟩
    rw [hw.view, hw.unanswered]
    exact h.mirror
  · intro hopen
    exact h.channel (ho hopen)

theorem Link.Synced.command (what : Command) (hr : InRange what)
    (pipe : PipeWrite) (nowNs : Int) : ∃ queued', (s.command what pipe nowNs).Synced flying queued' := by
  rw [Link.command]
  cases hencode : Ipc.encode kControlFrameType (encodeMessage ⟨s.controller.nextSequence, what⟩) with
  | error e => exact ⟨queued, h⟩
  | ok frame =>
    have hlen : (encodeMessage ⟨s.controller.nextSequence, what⟩).length ≤ Ipc.kMaxPayloadBytes := by
      by_contra hlong
      rw [Ipc.encode, if_pos (Nat.lt_of_not_le hlong)] at hencode
      cases hencode
    have hframe : frame = Ipc.frame (carried ⟨s.controller.nextSequence, what⟩) := by
      rw [Ipc.encode, if_neg (Nat.not_lt.mpr hlen)] at hencode
      cases hencode
      rfl
    by_cases hsent : s.controller.reaped = false ∧ pipe = .written
    · obtain ⟨hreaped, hpipe⟩ := hsent
      subst hpipe
      let message : ControlMessage := ⟨s.controller.nextSequence, what⟩
      refine ⟨queued ++ [message], ?_⟩
      simp only [hreaped, Bool.not_false, decide_true, Bool.and_true, if_true, Controller.command,
        Bool.false_eq_true, if_false]
      refine ⟨?_, h.fits, ?_, ?_, h.answered, h.stopLast, ?_, h.channel, h.unset⟩
      · have hask := h.mirror.ask message
        rw [Mirror.Agrees] at hask ⊢
        simp only [map_append]
        exact hask
      · show s.controller.commands.sent + 1 = s.controller.commands.done +
          s.controller.commands.refused + UInt64.ofNat (s.controller.unanswered ++ [_]).length
        have hbefore : s.controller.commands.sent = s.controller.commands.done +
          s.controller.commands.refused + UInt64.ofNat s.controller.unanswered.length := h.balanced
        rw [length_append, length_singleton, UInt64.ofNat_add, hbefore]
        ac_rfl
      · show s.written ++ [message] = s.handled ++ (queued ++ [message])
        rw [h.history, append_assoc]
      · intro hruns
        obtain ⟨hnostop, hsendable, hawaits⟩ := h.listening hruns
        refine ⟨hnostop, ?_, ?_⟩
        · exact forall_mem_append.mpr ⟨hsendable, forall_mem_singleton.mpr ⟨hr, hlen⟩⟩
        · have hwrite := hawaits.write [message.carried] (forall_mem_singleton.mpr hlen)
          rw [flatMap_singleton, ← hframe] at hwrite
          rw [map_append]
          exact hwrite
    · have hnone : (!s.controller.reaped && decide (pipe = .written)) = false := by
        rw [Bool.and_eq_false_iff, decide_eq_false_iff_not, Bool.not_eq_false']
        by_cases hreaped : s.controller.reaped = true
        · exact .inl hreaped
        · exact .inr fun hpipe => hsent ⟨Bool.eq_false_iff.mpr hreaped, hpipe⟩
      have hsame : Controller.command s.controller what pipe nowNs = s.controller := by
        unfold Controller.command
        split_ifs with hreaped
        · rfl
        · cases pipe with
          | gone => rfl
          | written => exact absurd ⟨Bool.eq_false_iff.mpr hreaped, rfl⟩ hsent
      refine ⟨queued, ?_⟩
      simp only [hnone, hsame]
      exact h

theorem Link.Synced.schedule (what : Command) (hr : InRange what)
    (pipe : PipeWrite) (nowNs : Int) :
    ∃ queued', (s.schedule what pipe nowNs).Synced flying queued' := by
  rw [Link.schedule]
  split_ifs
  · exact ⟨queued, h.mirror, h.fits, h.balanced, h.history, h.answered, h.stopLast, h.listening,
      h.channel, h.unset⟩
  · exact h.command what hr pipe nowNs

theorem Link.Synced.requestStop (pipe : PipeWrite) (nowNs : Int) :
    ∃ queued', (s.requestStop pipe nowNs).Synced flying queued' := by
  rw [Link.requestStop]
  split_ifs
  · exact ⟨queued, h⟩
  · obtain ⟨queued', hsent⟩ := h.command .stop trivial pipe nowNs
    exact ⟨queued', hsent.sameControl _ ⟨rfl, rfl, rfl⟩ id⟩

theorem Link.Synced.announce (type : RecordType) (text : List UInt8) :
    (s.announce type text).Synced flying queued := by
  refine ⟨h.mirror, h.fits, h.balanced, h.history, h.answered, h.stopLast, h.listening, ?_, h.unset⟩
  intro hopen
  obtain ⟨pending, hawaits, hacks⟩ := h.channel hopen
  have hwrite := awaits_wire hawaits [⟨type.code, text⟩]
  rw [flatMap_singleton] at hwrite
  refine ⟨_, hwrite, ?_⟩
  have hother : ([⟨type.code, text⟩].filter fitsFrame).filter isAck = [] := by
    rw [filter_eq_nil_iff]
    intro r hr
    have hcode : type.code ≠ kControlAckFrameType := by
      cases type <;> decide
    rw [mem_singleton.mp (mem_of_mem_filter hr), isAck, beq_iff_eq]
    exact hcode
  simp [hother, hacks]

theorem Link.Synced.drain (shortest : UInt64 → String) (count : Nat) :
    AcksTaken shortest s.controller (s.arriving count) ∧
      ∃ flying', (s.drain shortest count).Synced flying' queued := by
  rw [Link.arriving, Link.drain]
  split_ifs with hreadable
  · simp only [Link.readable, Bool.and_eq_true, Bool.or_eq_true, decide_eq_true_eq] at hreadable
    obtain ⟨hopen, hbytes⟩ := hreadable
    obtain ⟨pending, hawaits, hacks⟩ := h.channel hopen
    by_cases hchunk : s.toController.take count = []
    · have hempty : s.toController = [] := by
        rcases hbytes with hsome | ⟨hnone, -⟩
        · exact absurd hchunk hsome
        · exact hnone
      rw [hempty] at hawaits
      have hdrained : (s.drained count).1 = { endOfStream := true } := by
        rw [Link.drained, hchunk]
        exact hawaits.finish.2
      have hcontroller : Controller.drain shortest s.controller { endOfStream := true } =
          closeChannel s.controller := by
        simp [Controller.drain, drainRecords, hopen]
      rw [hdrained, hcontroller]
      refine ⟨trivial, flying, h.mirror, h.fits, h.balanced, h.history, h.answered, h.stopLast,
        h.listening, ?_, h.unset⟩
      intro hclosed
      cases hclosed
    · obtain ⟨k, channel', hdrain, hnext⟩ := hawaits.read count hchunk
      have hdrained : s.drained count = ({ records := pending.take k }, channel') := hdrain
      rw [hdrained]
      obtain ⟨htaken, flying', hagree, hfits, hbal, hrest⟩ := drainRecords_agrees shortest
        (pending.take k) (pending.drop k) s.controller flying queued _ h.mirror h.fits
        (by rw [take_append_drop]; exact hacks) h.balanced
      have hcontroller : Controller.drain shortest s.controller
          { records := pending.take k } =
            drainRecords shortest s.controller (pending.take k) := by
        simp [Controller.drain]
      refine ⟨htaken, flying', ?_⟩
      rw [hcontroller]
      exact ⟨hagree, hfits, hbal, h.history, h.answered, h.stopLast, h.listening,
        fun hstill => ⟨_, hnext, hrest hstill⟩, h.unset⟩
  · exact ⟨trivial, flying, h⟩

end

def survived (turn : Turn) : Bool :=
  match turn.step with
  | .ok _ => true
  | .error _ => false

def Survives (w : Services) (s : Link) : LinkStep → Prop
  | .tick count e =>
    match s.worker with
    | .running t => survived (t.once w (s.met count e)) = true
    | .gone _ _ => True
  | _ => True

instance (w : Services) (s : Link) (step : LinkStep) : Decidable (Survives w s step) := by
  unfold Survives
  split
  · split
    · infer_instance
    · infer_instance
  · infer_instance

theorem obeyAll_idle (view : View) (answered : List (ControlMessage × ControlAck))
    (hnone : ∀ p ∈ answered, ∀ duty, p.1.command ≠ .setDuty duty) :
    (obeyAll obey view answered).idleNs = view.idleNs := by
  induction answered generalizing view with
  | nil => rfl
  | cons p rest ih =>
    have hfirst : (obey view p.1 p.2).idleNs = view.idleNs := by
      have hp := hnone p (by simp)
      rw [obey]
      split
      · rfl
      · rfl
      · rename_i duty _ hduty
        exact absurd hduty (hp duty)
      · rfl
    have hrest := ih (obey view p.1 p.2) fun q hq => hnone q (by simp [hq])
    exact hrest.trans hfirst

/-- What a worker sent while it answered reaches the pipe with those answers and no others. -/
theorem replies_awaits {t t' : Ticker} {answered : List (ControlMessage × ControlAck)}
    (h : Replies t answered t') {source : Ipc.RecordSource} {pipe : List UInt8}
    {pending : List Record} (hawaits : source.Awaits pipe pending)
    (hacks : pending.filter isAck = flying.map fun p => ackRecord p.2) :
    ∃ pending', source.Awaits (pipe ++ wireAll (t'.sent.drop t.sent.length)) pending' ∧
      pending'.filter isAck = (flying ++ answered).map fun p => ackRecord p.2 := by
  obtain ⟨fresh, hsent, hfresh⟩ := h.sent
  have hwrite := awaits_wire hawaits (fresh.map Sent.carried)
  rw [flatMap_map] at hwrite
  rw [hsent, drop_left' rfl]
  refine ⟨_, hwrite, ?_⟩
  have hdetails : ∀ ack ∈ fresh.filterMap ackOf, ack.detail.length ≤ kMaxTextBytes := by
    intro ack hack
    rw [hfresh] at hack
    obtain ⟨p, hp, rfl⟩ := mem_map.mp hack
    exact (h.fits p hp).2
  rw [filter_append, hacks, acks_of_frames fresh hdetails, hfresh, map_append, map_map]
  rfl

theorem settle_isOver (w : Services) (turn : Turn) (step : TickStep) (hstep : turn.step = .ok step)
    (h : isOver (settle w turn) = false) : step = .kContinue := by
  rw [settle, hstep] at h
  cases step with
  | kContinue => rfl
  | kEnd => cases h
  | kLeave => cases h

theorem Link.Synced.tick (h : s.Synced flying queued) (w : Services)
    (hw : ∀ count, w.delivery count = .taken) (count : Nat) (e : TickWorld)
    (hs : Survives w s (.tick count e)) : ∃ flying' queued', (s.tick w count e).Synced flying' queued' := by
  rw [Link.tick]
  cases hworker : s.worker with
  | gone t outcome => exact ⟨flying, queued, h⟩
  | running t =>
    have hlives : ∀ error, (t.once w (s.met count e)).step ≠ .error error := by
      intro error hfails
      simp only [Survives, hworker, survived, hfails] at hs
      cases hs
    have hruns : isOver s.worker = false := by
      rw [hworker]
      rfl
    have hticker : s.worker.ticker = t := by
      rw [hworker]
      rfl
    obtain ⟨hnostop, hsendable, hawaits⟩ := h.listening hruns
    obtain ⟨found, control', hlook, hfront, hkept⟩ :=
      lookForMessages_awaits s.control s.toWorker count queued hsendable hawaits
    have hmet : (s.met count e).looked = .ok found := by
      rw [Link.met, hlook]
    obtain ⟨answered, step, hturn⟩ := once_replies w hw t (s.met count e) found hmet hlives
    have hsettled := settle_replies w hw t _ answered hturn.replies
    obtain ⟨rest, hqueued⟩ := hturn.upTo.front.trans hfront
    rw [hlook]
    refine ⟨flying ++ answered, rest, ?_, ?_, h.balanced, ?_, ?_, ?_, ?_, ?_, ?_⟩
    · have hmirror := h.mirror
      rw [hticker] at hmirror
      have hanswer := hmirror.answer answered rest (by rw [hturn.messages, hqueued])
      rw [← hsettled.view] at hanswer
      exact hanswer
    · intro p hp
      rcases mem_append.mp hp with hold | hnew
      · exact h.fits p hold
      · exact hturn.replies.fits p hnew
    · show s.written = s.handled ++ t.handledOnce w (s.met count e) ++ rest
      rw [append_assoc, hqueued, h.history]
    · show (settle w (t.once w (s.met count e))).ticker.acks.map ControlAck.sequence =
        (s.handled ++ t.handledOnce w (s.met count e)).map sequence
      have hbefore := h.answered
      rw [hticker] at hbefore
      simp [hsettled.acks, hbefore, hturn.replies.sequences, hturn.messages]
    · exact hturn.upTo.stopLast_append hnostop
    · intro hstill
      have hcontinue := settle_isOver w _ step hturn.survived hstill
      obtain ⟨hall, hnone⟩ := hturn.upTo.all hcontinue
      obtain ⟨more, hmore, hcontrol⟩ := hkept (hturn.unlost hcontinue)
      have hsame : rest = more := by
        rw [hmore, hall] at hqueued
        exact append_cancel_left hqueued
      refine ⟨?_, ?_, ?_⟩
      · intro m hm
        rcases mem_append.mp hm with hold | hnew
        · exact hnostop m hold
        · exact hnone m hnew
      · intro m hm
        apply hsendable m
        rw [← hqueued]
        exact mem_append_right _ hm
      · rw [hsame]
        exact hcontrol
    · intro hopen
      obtain ⟨pending, hchannel, hacks⟩ := h.channel hopen
      exact replies_awaits hsettled hchannel hacks
    · intro hunset
      rw [hsettled.view, obeyAll_idle]
      · have hbefore := h.unset fun m hm => hunset m (by simp [hm])
        rw [hticker] at hbefore
        exact hbefore
      · intro p hp
        apply hunset p.1
        apply mem_append_right
        rw [← hturn.messages]
        exact mem_map_of_mem hp

/-- Every message is handled and answered once and in order, no answer is refused, none is lost,
and a controller that waits for nothing sees the worker as it is. -/
structure ProtocolKept (shortest : UInt64 → String) (s : Link) : Prop where
  answeredOnce : s.worker.ticker.acks.map ControlAck.sequence =
    s.handled.map ControlMessage.sequence
  inOrder : s.handled <+: s.written
  stopLast : ∀ m ∈ s.handled.dropLast, m.command ≠ .stop
  neverRefused : ∀ count, AcksTaken shortest s.controller (s.arriving count)
  balanced : s.controller.commands.sent = s.controller.commands.done +
    s.controller.commands.refused + UInt64.ofNat s.controller.unanswered.length
  sameView : s.controller.unanswered = [] → s.controller.paused = s.worker.ticker.paused ∧
    s.controller.idleAllowanceNs = idleNs s.worker.ticker.duty.duty
  noDuty : s.controller.unanswered = [] →
    (∀ m ∈ s.handled, ∀ duty, m.command ≠ .setDuty duty) → s.controller.idleAllowanceNs = 0

theorem Link.Synced.kept (h : s.Synced flying queued) (shortest : UInt64 → String) :
    ProtocolKept shortest s := by
  have hview : s.controller.unanswered = [] → s.controller.view = s.worker.ticker.view := by
    intro hnone
    have hmirror := h.mirror
    rw [hnone] at hmirror
    exact hmirror.settled
  refine ⟨h.answered, ?_, h.stopLast, fun count => (h.drain shortest count).1, h.balanced, ?_, ?_⟩
  · rw [h.history]
    exact prefix_append _ _
  · intro hnone
    have hsame := hview hnone
    exact ⟨congrArg View.paused hsame, congrArg View.idleNs hsame⟩
  · intro hnone hunset
    exact (congrArg View.idleNs (hview hnone)).trans (h.unset hunset)

theorem launch_synced (w : Services) (hw : ∀ count, w.delivery count = .taken)
    (args : WorkloadArgs) (cpus : List UInt32) (worker : Life)
    (hstart : startWorker w args cpus = .ok worker) (slot : Nat) (plan : WorkerPlan) :
    (Link.launch slot plan worker).Synced [] [] := by
  rw [startWorker] at hstart
  cases hmade : prepare (w.made 0) args cpus 0 with
  | error e =>
    rw [hmade] at hstart
    cases hstart
  | ok runner =>
    rw [hmade] at hstart
    simp only [Except.map, Ticker.tellMemory, send_taken hw, Turn.goOn, Except.ok.injEq] at hstart
    subst hstart
    have hwrite := awaits_wire .start ([Sent.memory runner.memoryLock].map Sent.carried)
    rw [flatMap_map] at hwrite
    have hidle : idleNs {} = 0 := by decide
    refine ⟨⟨rfl, congrArg (View.mk false) hidle.symm⟩, by simp, rfl, rfl, rfl,
      by simp [Link.launch], ?_, ?_, fun _ => hidle⟩
    · intro _
      exact ⟨by simp [Link.launch], by simp, .start⟩
    · intro _
      refine ⟨_, hwrite, ?_⟩
      have hnone := acks_of_frames [Sent.memory runner.memoryLock] (by simp [ackOf])
      rw [filter_append, hnone]
      rfl

/-- The contract of the control protocol, over any run in which both pipes hold and the worker
lives. -/
theorem control_protocol_keeps_its_contract (w : Services)
    (hw : ∀ count, w.delivery count = .taken) (shortest : UInt64 → String) (args : WorkloadArgs)
    (cpus : List UInt32) (worker : Life) (hstart : startWorker w args cpus = .ok worker)
    (slot : Nat) (plan : WorkerPlan) (steps : List LinkStep)
    (hlives : Along (Link.step w shortest) (Survives w) (Link.launch slot plan worker) steps) :
    ProtocolKept shortest (run (Link.step w shortest) (Link.launch slot plan worker) steps) := by
  have hinv : ∃ flying queued,
      (run (Link.step w shortest) (Link.launch slot plan worker) steps).Synced flying queued := by
    refine run_inv_of_along (fun s : Link => ∃ flying queued, s.Synced flying queued) ?_ _ steps
      ⟨[], [], launch_synced w hw args cpus worker hstart slot plan⟩ hlives
    intro s step hs hsurvives
    obtain ⟨flying, queued, h⟩ := hs
    cases step with
    | schedule what pipe nowNs => exact ⟨flying, h.schedule what.1 what.2 pipe nowNs⟩
    | requestStop pipe nowNs => exact ⟨flying, h.requestStop pipe nowNs⟩
    | tick count e => exact h.tick w hw count e hsurvives
    | announce type text => exact ⟨flying, queued, h.announce type text⟩
    | drain count =>
      obtain ⟨flying', hdrained⟩ := (h.drain shortest count).2
      exact ⟨flying', queued, hdrained⟩
  obtain ⟨flying, queued, h⟩ := hinv
  exact h.kept shortest

section Paused

/-- A Pause, a duty whose frame comes in two pieces, and a Stop, answered in pieces. -/
def pausedRun : List LinkStep :=
  [.announce .kStarted [], .schedule ⟨.pause, trivial⟩ .written 10,
   .tick 22 { now := .ok (1000, 1000), after := .ok 1500 },
   .schedule ⟨.setDuty ⟨250, 1000000⟩, by decide⟩ .written 20,
   .tick 10 { now := .ok (2000, 2000), after := .ok 2500 }, .drain 40,
   .tick 22 { now := .ok (3000, 3000), after := .ok 3500 }, .drain 100,
   .requestStop .written 30, .tick 22 { now := .ok (4000, 4000), after := .ok 4500 }, .drain 27]

def pausedLink (worker : Life) : Link :=
  run (Link.step quietServices fun _ => "")
    (Link.launch 0 { description := "", together := WorkerPlan.none_together } worker) pausedRun

theorem paused_run_keeps_its_contract :
    ∃ worker, startWorker quietServices soloArgs [] = .ok worker ∧
      ProtocolKept (fun _ => "") (pausedLink worker) ∧
      (pausedLink worker).controller.commands = { sent := 3, done := 3 } ∧
      (pausedLink worker).controller.view = ⟨true, 750000⟩ := by
  refine ⟨_, rfl, ?_, ?_, ?_⟩
  · exact control_protocol_keeps_its_contract quietServices (fun _ => rfl) (fun _ => "") soloArgs []
      _ rfl 0 { description := "" } pausedRun (by decide +kernel)
  · decide +kernel
  · decide +kernel

end Paused

end LoadForge.Controller
