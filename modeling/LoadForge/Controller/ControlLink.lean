import LoadForge.Controller.Tick
import LoadForge.Worker.Answers
import LoadForge.Worker.ControlChannel

namespace LoadForge.Controller

open Framework Verification Worker List

/-- The two ends and the pipes between them, with what was written and what was handled. -/
structure Link where
  controller : Tracked
  toWorker : List UInt8 := []
  control : Ipc.RecordSource := {}
  worker : Life
  toController : List UInt8 := []
  channel : Ipc.RecordSource := {}
  written : List ControlMessage := []
  handled : List ControlMessage := []

/-- The records a worker's process sends around its loop. -/
inductive RecordType
  | kStarted | kFinished | kError
  deriving DecidableEq

def RecordType.code : RecordType → UInt16
  | .kStarted => 1
  | .kFinished => 2
  | .kError => 3

/-- A command, a stop, a tick that finds so many bytes, a record, or a read of so many bytes. -/
inductive LinkStep
  | schedule (what : { command : Command // InRange command }) (pipe : PipeWrite) (nowNs : Int)
  | requestStop (pipe : PipeWrite) (nowNs : Int)
  | tick (count : Nat) (e : TickWorld)
  | announce (type : RecordType) (text : List UInt8)
  | drain (count : Nat)

def wireAll (frames : List Sent) : List UInt8 := frames.flatMap fun frame => wire frame.carried

/-- A worker that was started, and that its controller has just begun to track. -/
def Link.launch (slot : Nat) (plan : WorkerPlan) (worker : Life) : Link where
  controller := .launch slot plan
  worker := worker
  toController := wireAll worker.ticker.sent

/-- A message to the worker. One that has no frame is an error of the controller's, which ends its
run. -/
def Link.command (s : Link) (what : Command) (pipe : PipeWrite) (nowNs : Int) : Link :=
  let message : ControlMessage := ⟨s.controller.nextSequence, what⟩
  match Ipc.encode kControlFrameType (encodeMessage message) with
  | .error _ => s
  | .ok frame =>
    let sent : Bool := !s.controller.reaped && pipe = .written
    { s with
      controller := Controller.command s.controller what pipe nowNs
      toWorker := if sent then s.toWorker ++ frame else s.toWorker
      written := if sent then s.written ++ [message] else s.written }

/-- A command of the schedule, dropped when too many are unanswered. -/
def Link.schedule (s : Link) (what : Command) (pipe : PipeWrite) (nowNs : Int) : Link :=
  if kMaxUnanswered ≤ s.controller.unanswered.length then
    { s with controller := { s.controller with commands :=
        { s.controller.commands with dropped := s.controller.commands.dropped + 1 } } }
  else s.command what pipe nowNs

/-- A Stop, sent once and whatever is unanswered. -/
def Link.requestStop (s : Link) (pipe : PipeWrite) (nowNs : Int) : Link :=
  if s.controller.reaped ∨ s.controller.step ≠ .kNone then s
  else
    let asked := s.command .stop pipe nowNs
    { asked with controller :=
        { asked.controller with step := .kRequested, stepSinceNs := nowNs } }

/-- What a tick meets when it finds so many bytes on the control pipe. -/
def Link.met (s : Link) (count : Nat) (e : TickWorld) : TickWorld :=
  { e with looked := .ok (lookForMessages s.control (s.toWorker.take count)).1 }

def Link.tick (w : Services) (s : Link) (count : Nat) (e : TickWorld) : Link :=
  match s.worker with
  | .gone _ _ => s
  | .running t =>
    let worker := settle w (t.once w (s.met count e))
    { s with
      toWorker := s.toWorker.drop count
      control := (lookForMessages s.control (s.toWorker.take count)).2
      worker := worker
      toController := s.toController ++ wireAll (worker.ticker.sent.drop t.sent.length)
      handled := s.handled ++ t.handledOnce w (s.met count e) }

def Link.announce (s : Link) (type : RecordType) (text : List UInt8) : Link :=
  { s with toController := s.toController ++ wire ⟨type.code, text⟩ }

def isOver : Life → Bool
  | .running _ => false
  | .gone _ _ => true

/-- The controller reads a pipe that has bytes for it, or that its writer has left. -/
def Link.readable (s : Link) (count : Nat) : Bool :=
  s.controller.channelOpen &&
    (s.toController.take count ≠ [] || (s.toController = [] && isOver s.worker))

def Link.drained (s : Link) (count : Nat) : Ipc.Drained × Ipc.RecordSource :=
  s.channel.drain (s.toController.take count)

def Link.drain (shortest : UInt64 → String) (s : Link) (count : Nat) : Link :=
  if s.readable count then
    { s with
      controller := Controller.drain shortest s.controller (s.drained count).1
      toController := s.toController.drop count
      channel := (s.drained count).2 }
  else s

def Link.step (w : Services) (shortest : UInt64 → String) (s : Link) : LinkStep → Link
  | .schedule what pipe nowNs => s.schedule what pipe nowNs
  | .requestStop pipe nowNs => s.requestStop pipe nowNs
  | .tick count e => s.tick w count e
  | .announce type text => s.announce type text
  | .drain count => s.drain shortest count

/-- The records the controller's next read would bring it. -/
def Link.arriving (s : Link) (count : Nat) : List Record :=
  if s.readable count then (s.drained count).1.records else []

/-- None of the acknowledgements among some records is refused. -/
def AcksTaken (shortest : UInt64 → String) : Tracked → List Record → Prop
  | _, [] => True
  | w, r :: rs =>
    (r.type = kControlAckFrameType → ∃ w', takeAck w r = .ok w') ∧
      match ingest shortest w r with
      | .ok w' => AcksTaken shortest w' rs
      | .error _ => True

def Tracked.view (w : Tracked) : View := ⟨w.paused, w.idleAllowanceNs⟩

def Unanswered.message (u : Unanswered) : ControlMessage := ⟨u.sequence, u.command⟩

def Tracked.Balanced (w : Tracked) : Prop :=
  w.commands.sent = w.commands.done + w.commands.refused + UInt64.ofNat w.unanswered.length

/-- The parts of a worker's account that its commands are kept in. -/
structure SameControl (w w' : Tracked) : Prop where
  unanswered : w'.unanswered = w.unanswered
  commands : w'.commands = w.commands
  view : w'.view = w.view

theorem SameControl.balanced {w w' : Tracked} (h : SameControl w w') (hw : w.Balanced) :
    w'.Balanced := by
  rw [Tracked.Balanced, h.unanswered, h.commands]
  exact hw

def isAck (r : Record) : Bool := r.type == kControlAckFrameType

variable (shortest : UInt64 → String)

section

variable (w w' : Tracked) (r : Record)

theorem takeErrorRecord_sameControl
    (ht : takeErrorRecord shortest w r = .ok w') : SameControl w w' := by
  rw [takeErrorRecord] at ht
  split_ifs at ht
  cases hdecode : decode shortest r.payload with
  | error e =>
    rw [hdecode] at ht
    cases ht
  | ok found =>
    rw [hdecode] at ht
    simp only at ht
    split at ht
    · cases ht
    · simp only [Except.ok.injEq] at ht
      subst ht
      split_ifs <;> exact ⟨rfl, rfl, rfl⟩

theorem takeMemory_sameControl (ht : takeMemory w r = .ok w') : SameControl w w' := by
  rw [takeMemory] at ht
  split at ht
  · cases ht
  · split at ht <;> cases ht <;> exact ⟨rfl, rfl, rfl⟩

theorem ingest_sameControl (hr : isAck r = false)
    (hi : ingest shortest w r = .ok w') : SameControl w w' := by
  have htype : r.type ≠ kControlAckFrameType := by
    rw [isAck, beq_eq_false_iff_ne] at hr
    exact hr
  rw [ingest] at hi
  split_ifs at hi with herror htally hmemory hfinished
  · exact takeErrorRecord_sameControl shortest w w' r hi
  · obtain ⟨now, -, rfl, -⟩ := takeTally_ok w w' r hi
    exact ⟨rfl, rfl, rfl⟩
  · exact takeMemory_sameControl w w' r hi
  · cases hi
    exact ⟨rfl, rfl, rfl⟩
  · cases hi
    exact ⟨rfl, rfl, rfl⟩

end

theorem ingest_ack (w : Tracked) (r : Record) (hr : isAck r = true) :
    ingest shortest w r = takeAck w r := by
  have htype : r.type = kControlAckFrameType := eq_of_beq hr
  rw [ingest, htype, if_neg (by decide), if_neg (by decide), if_neg (by decide), if_pos rfl]

theorem takeAck_carried (w : Tracked) (u : Unanswered) (rest : List Unanswered) (ack : ControlAck)
    (hu : w.unanswered = u :: rest) (hs : ack.sequence = u.sequence)
    (hd : ack.detail.length ≤ kMaxTextBytes) (hb : w.Balanced) :
    ∃ w', takeAck w (Sent.ack ack).carried = .ok w' ∧ w'.unanswered = rest ∧
      w'.view = obey w.view u.message ack ∧ w'.Balanced ∧ w'.channelOpen = w.channelOpen := by
  have hdecode : decodeAck (Sent.ack ack).carried.payload = .ok ack := decodeAck_encodeAck ack hd
  rw [Tracked.Balanced, hu, length_cons, UInt64.ofNat_add] at hb
  rw [takeAck, hdecode]
  simp only [hu, hs, ne_eq, not_true_eq_false, if_false]
  cases hstatus : ack.status with
  | kRefused =>
    refine ⟨_, rfl, rfl, ?_, ?_, rfl⟩
    · rw [obey, hstatus]
      rfl
    · show w.commands.sent = w.commands.done + (w.commands.refused + 1) + UInt64.ofNat rest.length
      rw [hb]
      ac_rfl
  | kDone =>
    have hsum : w.commands.sent =
        w.commands.done + 1 + w.commands.refused + UInt64.ofNat rest.length := by
      rw [hb]
      ac_rfl
    refine ⟨_, rfl, ?_⟩
    rw [obey, hstatus, Unanswered.message]
    cases u.command <;> exact ⟨rfl, rfl, hsum, rfl⟩

/-- Records with the next acknowledgements are taken, and the controller's view goes along. -/
theorem drainRecords_agrees (rs more : List Record) (w : Tracked)
    (flying : List (ControlMessage × ControlAck)) (queued : List ControlMessage) (server : View)
    (hagree : Mirror.Agrees obey ⟨w.view, w.unanswered.map Unanswered.message, flying, queued, server⟩)
    (hfits : ∀ p ∈ flying, p.2.sequence = p.1.sequence ∧ p.2.detail.length ≤ kMaxTextBytes)
    (hacks : (rs ++ more).filter isAck = flying.map fun p => (Sent.ack p.2).carried)
    (hb : w.Balanced) :
    AcksTaken shortest w rs ∧ ∃ flying',
      Mirror.Agrees obey ⟨(drainRecords shortest w rs).view,
        (drainRecords shortest w rs).unanswered.map Unanswered.message, flying', queued, server⟩ ∧
      (∀ p ∈ flying', p.2.sequence = p.1.sequence ∧ p.2.detail.length ≤ kMaxTextBytes) ∧
      (drainRecords shortest w rs).Balanced ∧
      ((drainRecords shortest w rs).channelOpen = true →
        more.filter isAck = flying'.map fun p => (Sent.ack p.2).carried) := by
  induction rs generalizing w flying with
  | nil => exact ⟨trivial, flying, hagree, hfits, hb, fun _ => hacks⟩
  | cons r rs ih =>
    cases hack : isAck r with
    | false =>
      have hrest : (rs ++ more).filter isAck = flying.map fun p => (Sent.ack p.2).carried := by
        rw [cons_append, filter_cons, hack] at hacks
        exact hacks
      have hother : r.type ≠ kControlAckFrameType := by
        rw [isAck, beq_eq_false_iff_ne] at hack
        exact hack
      rw [AcksTaken, drainRecords]
      cases hingest : ingest shortest w r with
      | ok w' =>
        have hsame := ingest_sameControl shortest w w' r hack hingest
        obtain ⟨htaken, hlater⟩ := ih w' flying (by rw [hsame.view, hsame.unanswered]; exact hagree)
          hfits hrest (hsame.balanced hb)
        exact ⟨⟨fun h => absurd h hother, htaken⟩, hlater⟩
      | error refusal =>
        refine ⟨⟨fun h => absurd h hother, trivial⟩, flying, hagree, hfits, hb, ?_⟩
        intro hopen
        cases hopen
    | true =>
      rw [cons_append, filter_cons, hack, if_pos rfl] at hacks
      cases flying with
      | nil => cases hacks
      | cons p flying =>
        rw [map_cons, cons.injEq] at hacks
        obtain ⟨hr, hrest⟩ := hacks
        obtain ⟨hseq, hdetail⟩ := hfits p (by simp)
        obtain ⟨waiting, hwaiting, hnext⟩ := hagree.take
        cases hu : w.unanswered with
        | nil =>
          rw [hu] at hwaiting
          cases hwaiting
        | cons u us =>
          rw [hu, map_cons, cons.injEq] at hwaiting
          obtain ⟨hmessage, hus⟩ := hwaiting
          have hsequence : p.2.sequence = u.sequence := by
            rw [hseq, ← hmessage]
            rfl
          obtain ⟨w', htake, hun, hview, hbal, -⟩ :=
            takeAck_carried w u us p.2 hu hsequence hdetail hb
          have hingest : ingest shortest w r = .ok w' := by
            rw [ingest_ack shortest w r hack, hr]
            exact htake
          rw [AcksTaken, drainRecords, hingest]
          obtain ⟨htaken, hlater⟩ := ih w' flying
            (by rw [hview, hmessage, hun, hus]; exact hnext)
            (fun q hq => hfits q (by simp [hq])) hrest hbal
          refine ⟨⟨?_, htaken⟩, hlater⟩
          intro _
          rw [hr]
          exact ⟨w', htake⟩

end LoadForge.Controller
