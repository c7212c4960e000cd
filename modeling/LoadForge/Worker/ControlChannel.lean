import LoadForge.Verification.Encode
import LoadForge.Worker.ControlCodec
import LoadForge.Worker.Reassembly

namespace LoadForge.Ipc

open Framework Worker List

structure RecordSource where
  reader : RecordReader := {}
  ended : Bool := false

namespace RecordSource

/-- One read, which brought `chunk`; a read that brings nothing is the end of the stream. -/
def drain (s : RecordSource) (chunk : List UInt8) : Drained × RecordSource :=
  if s.ended then ({ endOfStream := true }, s)
  else if s.reader.fault.isSome then ({ fault := s.reader.fault }, s)
  else if chunk = [] then
    match s.reader.finish with
    | (.ok (), reader) => ({ endOfStream := true }, ⟨reader, true⟩)
    | (.error fault, reader) => ({ fault := some fault, endOfStream := true }, ⟨reader, true⟩)
  else
    match RecordReader.drain ((s.reader.feed chunk).buffer.length + 1) (s.reader.feed chunk) with
    | (records, fault, reader) => ({ records, fault }, ⟨reader, false⟩)

/-- The reader has none of these records yet: what it holds and what is in the pipe are their
frames. -/
structure Awaits (s : RecordSource) (pipe : List UInt8) (rs : List Record) : Prop where
  unended : s.ended = false
  sound : s.reader.fault = none
  waits : look s.reader.buffer = .stop none
  bytes : s.reader.buffer ++ pipe = rs.flatMap frame
  fits : ∀ r ∈ rs, r.payload.length ≤ kMaxPayloadBytes

variable {s : RecordSource} {pipe : List UInt8} {rs : List Record}

theorem Awaits.start : Awaits {} [] [] := ⟨rfl, rfl, rfl, rfl, by simp⟩

theorem Awaits.write (h : s.Awaits pipe rs) (more : List Record)
    (hm : ∀ r ∈ more, r.payload.length ≤ kMaxPayloadBytes) :
    s.Awaits (pipe ++ more.flatMap frame) (rs ++ more) := by
  refine ⟨h.unended, h.sound, h.waits, ?_, ?_⟩
  · rw [← append_assoc, h.bytes, flatMap_append]
  · exact forall_mem_append.mpr ⟨h.fits, hm⟩

theorem Awaits.read (h : s.Awaits pipe rs) (count : Nat) (hc : pipe.take count ≠ []) :
    ∃ k s', s.drain (pipe.take count) = ({ records := rs.take k }, s') ∧
      s'.Awaits (pipe.drop count) (rs.drop k) := by
  obtain ⟨⟨buffer, fault⟩, ended⟩ := s
  obtain ⟨hopen, hsound, -, hbytes, hfits⟩ := h
  simp only at hopen hsound hbytes
  subst hopen
  subst hsound
  let fed := buffer ++ pipe.take count
  have hfed : fed = (rs.flatMap frame).take fed.length := by
    rw [← hbytes, ← take_append_drop count pipe, ← append_assoc, take_left' (by simp [fed])]
  obtain ⟨k, hk⟩ := whole_eq_take (f := frame) fed.length rs
  have hdrain := drain_records hfits fed fed.length hfed
  have hrest : torn frame fed.length rs ++ pipe.drop count = (rs.drop k).flatMap frame := by
    have hall : fed ++ pipe.drop count = (rs.take k).flatMap frame ++ (rs.drop k).flatMap frame := by
      rw [← flatMap_append, take_append_drop, ← hbytes, append_assoc, take_append_drop]
    rw [hfed, take_flatMap_eq, hk, append_assoc] at hall
    exact append_cancel_left hall
  refine ⟨k, ⟨⟨torn frame fed.length rs, none⟩, false⟩, ?_, ?_⟩
  · rw [← hk]
    simp only [drain, Bool.false_eq_true, if_false, Option.isSome_none, if_neg hc,
      RecordReader.feed]
    rw [hdrain]
  · refine ⟨rfl, rfl, look_torn hfits _, hrest, ?_⟩
    intro r hr
    exact hfits r (mem_of_mem_drop hr)

theorem Awaits.finish (h : s.Awaits [] rs) :
    rs = [] ∧ (s.drain []).1 = { endOfStream := true } := by
  have hbytes := h.bytes
  rw [append_nil] at hbytes
  have hnone : rs = [] := by
    cases rs with
    | nil => rfl
    | cons r rest =>
      have hwaits := h.waits
      rw [hbytes, flatMap_cons, look_frame r _ (h.fits r (by simp))] at hwaits
      cases hwaits
  refine ⟨hnone, ?_⟩
  rw [hnone] at hbytes
  have hempty : s.reader.buffer = [] := hbytes
  simp [drain, h.unended, h.sound, RecordReader.finish, hempty]

end RecordSource

end LoadForge.Ipc

namespace LoadForge.Worker

open Framework Verification Ipc List

def lockPolicyCode : LockPolicy → UInt8
  | .kRequire => 0
  | .kTry => 1
  | .kNone => 2

def encodeMemory (lock : MemoryLock) : List UInt8 :=
  kMemoryFormatVersion :: lockPolicyCode lock.policy :: UInt8.ofNat lock.outcome.code ::
    lock.detail.take kMaxMemoryDetailBytes

def Sent.carried : Sent → Record
  | .record r => ⟨kErrorRecordFrameType, Verification.encode r⟩
  | .tally t => ⟨kTallyFrameType, encodeTally t⟩
  | .memory lock => ⟨kMemoryFrameType, encodeMemory lock⟩
  | .ack a => ⟨kControlAckFrameType, encodeAck a⟩

/-- The bytes a record puts into a pipe: its frame, unless it is too long for one. -/
def wire (r : Record) : List UInt8 := ((Ipc.encode r.type r.payload).toOption).getD []

/-- The messages of some records, in order, and whether they were all messages. -/
def readMessages : List Record → List ControlMessage × Bool
  | [] => ([], true)
  | r :: rest =>
    if r.type ≠ kControlFrameType then ([], false)
    else
      match decodeMessage r.payload with
      | .error _ => ([], false)
      | .ok message => (message :: (readMessages rest).1, (readMessages rest).2)

/-- A drain for the worker: messages that came whole before a fault are handled first. -/
def lookAt (d : Drained) : ControlLook where
  messages := (readMessages d.records).1
  lost :=
    if !(readMessages d.records).2 then some .kControlChannelBroken
    else
      match d.fault with
      | some error =>
        some (if error.fault = .kTruncated then .kControllerHungUp else .kControlChannelBroken)
      | none => if d.endOfStream then some .kControllerHungUp else none

/-- A look at the control pipe that found `chunk` to read, or nothing. -/
def lookForMessages (source : RecordSource) (chunk : List UInt8) : ControlLook × RecordSource :=
  if chunk = [] then ({}, source)
  else (lookAt (source.drain chunk).1, (source.drain chunk).2)

def ControlMessage.carried (message : ControlMessage) : Record :=
  ⟨kControlFrameType, encodeMessage message⟩

/-- A message the controller can put into the control pipe. -/
def Sendable (message : ControlMessage) : Prop :=
  InRange message.command ∧ message.carried.payload.length ≤ kMaxPayloadBytes

/-- The messages that are read are the ones that were sent, up to the first that is refused. -/
theorem readMessages_carried (messages : List ControlMessage) (hm : ∀ m ∈ messages, Sendable m) :
    (readMessages (messages.map ControlMessage.carried)).1 <+: messages ∧
      ((readMessages (messages.map ControlMessage.carried)).2 = true →
        (readMessages (messages.map ControlMessage.carried)).1 = messages) := by
  induction messages with
  | nil => exact ⟨prefix_rfl, fun _ => rfl⟩
  | cons message rest ih =>
    obtain ⟨hrange, hlen⟩ := hm message (by simp)
    obtain ⟨hfirst, hall⟩ := ih fun m hmem => hm m (by simp [hmem])
    have hmax : kMaxPayloadBytes = 65536 := rfl
    have hlt : (encodeMessage message).length < 2 ^ 32 := by
      rw [hmax] at hlen
      exact Nat.lt_of_le_of_lt hlen (by decide)
    have hdecode := decodeMessage_encodeMessage message hrange hlt
    cases hvalid : isValid message.command with
    | false =>
      rw [hvalid] at hdecode
      have hread : readMessages ((message :: rest).map ControlMessage.carried) = ([], false) := by
        simp [readMessages, ControlMessage.carried, hdecode]
      rw [hread]
      refine ⟨ nil_prefix, ?_⟩
      intro hfalse
      cases hfalse
    | true =>
      rw [hvalid] at hdecode
      have hread : readMessages ((message :: rest).map ControlMessage.carried) =
          (message :: (readMessages (rest.map ControlMessage.carried)).1,
            (readMessages (rest.map ControlMessage.carried)).2) := by
        simp [readMessages, ControlMessage.carried, hdecode]
      rw [hread]
      refine ⟨cons_prefix_cons.mpr ⟨rfl, hfirst⟩, ?_⟩
      intro hgood
      exact congrArg (message :: ·) (hall hgood)

/-- A look brings the first of the messages on their way, all it read unless the channel is lost. -/
theorem lookForMessages_awaits (source : RecordSource) (pipe : List UInt8) (count : Nat)
    (messages : List ControlMessage) (hm : ∀ m ∈ messages, Sendable m)
    (ha : source.Awaits pipe (messages.map ControlMessage.carried)) :
    ∃ found source', lookForMessages source (pipe.take count) = (found, source') ∧
      found.messages <+: messages ∧
      (found.lost = none → ∃ rest, messages = found.messages ++ rest ∧
        source'.Awaits (pipe.drop count) (rest.map ControlMessage.carried)) := by
  by_cases hchunk : pipe.take count = []
  · refine ⟨{}, source, by rw [lookForMessages, if_pos hchunk], nil_prefix, ?_⟩
    intro _
    have hsame : pipe.drop count = pipe := by
      have hsplit := take_append_drop count pipe
      rw [hchunk] at hsplit
      exact hsplit
    rw [hsame]
    exact ⟨messages, rfl, ha⟩
  · obtain ⟨k, source', hdrain, hawaits⟩ := ha.read count hchunk
    rw [← map_take] at hdrain
    rw [← map_drop] at hawaits
    obtain ⟨hfirst, hall⟩ := readMessages_carried (messages.take k)
      fun m hmem => hm m (mem_of_mem_take hmem)
    refine ⟨lookAt { records := (messages.take k).map ControlMessage.carried }, source', ?_, ?_, ?_⟩
    · rw [lookForMessages, if_neg hchunk, hdrain]
    · exact hfirst.trans ( take_prefix k messages)
    · intro hlost
      have hgood : (readMessages ((messages.take k).map ControlMessage.carried)).2 = true := by
        by_contra hbad
        rw [Bool.not_eq_true] at hbad
        simp only [lookAt, hbad, Bool.not_false, if_true] at hlost
        cases hlost
      refine ⟨messages.drop k, ?_, hawaits⟩
      show messages = (readMessages ((messages.take k).map ControlMessage.carried)).1 ++ messages.drop k
      rw [hall hgood, take_append_drop]

end LoadForge.Worker
