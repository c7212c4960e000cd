import LoadForge.Main.ResultFiles
import LoadForge.Worker.ControlChannel

namespace LoadForge.Ipc

open Framework Worker
open Cli (SyscallError kMaxConsecutiveInterrupts)

inductive ChannelError
  | frame (error : FrameError)
  | cause (error : SyscallError)

def kInputOutput : Nat := 5

def writeAll (fd : Int) (write : Nat → Except SyscallError Nat) (next : Nat)
    (bytes pipe : List UInt8) : List UInt8 × Except ChannelError Unit :=
  if bytes = [] then (pipe, .ok ())
  else
    match Cli.retry write (kMaxConsecutiveInterrupts - 1) next with
    | (.error e, _) => (pipe, .error (.cause e))
    | (.ok count, next) =>
      if count = 0 then
        (pipe, .error (.cause ⟨kInputOutput, "send",
          "fd " ++ toString fd ++ " (write transferred nothing)", "Input/output error"⟩))
      else writeAll fd write next (bytes.drop count) (pipe ++ bytes.take count)
termination_by bytes.length
decreasing_by
  have hpos := List.length_pos_iff.mpr (by assumption : ¬ bytes = [])
  rw [List.length_drop]
  omega

def send (fd : Int) (write : Nat → Except SyscallError Nat) (type : UInt16)
    (payload pipe : List UInt8) : List UInt8 × Except ChannelError Unit :=
  match encode type payload with
  | .error e => (pipe, .error (.frame e))
  | .ok bytes => writeAll fd write 0 bytes pipe

theorem writeAll_spec (fd : Int) (write : Nat → Except SyscallError Nat) (next : Nat)
    (bytes pipe : List UInt8) :
    ∃ written, (writeAll fd write next bytes pipe).1 = pipe ++ written ∧ written <+: bytes ∧
      ((writeAll fd write next bytes pipe).2 = .ok () → written = bytes) := by
  fun_induction writeAll fd write next bytes pipe with
  | case4 next bytes pipe hbytes count next' hwrite hcount ih =>
    obtain ⟨written, hpipe, hpre, hall⟩ := ih
    refine ⟨bytes.take count ++ written, by rw [hpipe, List.append_assoc],
      Cli.take_append_isPrefix bytes written count hpre, ?_⟩
    intro hok
    rw [hall hok, List.take_append_drop]
  | _ => exact ⟨[], by simp, by simp, by simp⟩

/-- A source across calls of its drain: the number of its next read, what its reads brought, of
which an empty chunk is the end, and the records the calls returned. -/
structure Channel where
  source : RecordSource := {}
  next : Nat := 0
  chunks : List (List UInt8) := []
  records : List Record := []

/-- One call, with the system's answers to the reads; one that has ended or is faulty reads
nothing. -/
def Channel.call (answers : Nat → Except SyscallError (List UInt8)) (c : Channel) :
    Except ChannelError Drained × Channel :=
  if c.source.ended || c.source.reader.fault.isSome then
    let (drained, source) := c.source.drain []
    (.ok drained, ⟨source, c.next, c.chunks, c.records ++ drained.records⟩)
  else
    match Cli.retry answers (kMaxConsecutiveInterrupts - 1) c.next with
    | (.error e, next) => (.error (.cause e), { c with next })
    | (.ok chunk, next) =>
      let (drained, source) := c.source.drain chunk
      (.ok drained, ⟨source, next, c.chunks ++ [chunk], c.records ++ drained.records⟩)

def Channel.after (answers : Nat → Except SyscallError (List UInt8)) : Nat → Channel
  | 0 => {}
  | calls + 1 => ((Channel.after answers calls).call answers).2

/-- The records returned are those in what was read, up to a fault or the end of the bytes, and
the source holds what is left of them. -/
structure Channel.Kept (c : Channel) (ending : Option FrameError) (left : List UInt8) : Prop where
  reads : Reads look c.chunks.flatten c.records ending left
  ended : c.source.ended = decide ([] ∈ c.chunks)
  fault : c.source.ended = false → c.source.reader.fault = ending
  holds : ending = none → c.source.reader.buffer = left
  sound : c.source.ended = true → ending = none

/-- What a drain told: the end of the stream, a fault of the frames, or bytes left at the end. -/
structure Told (before after : List (List UInt8)) (ending : Option FrameError) (left : List UInt8)
    (d : Drained) : Prop where
  endOfStream : d.endOfStream = decide ([] ∈ after)
  fault : [] ∉ after → d.fault = ending
  whole : [] ∈ after → ending = none ∧ d.records = []
  truncated : [] ∈ after → [] ∉ before →
    d.fault = if left = [] then none
      else some ⟨.kTruncated, foundExpected "bytes left" left.length 0⟩

/-- A call that failed has read and returned nothing; another tells of all that was read. -/
def Channel.Answered (c c' : Channel) (ending : Option FrameError) (left : List UInt8) :
    Except ChannelError Drained → Prop
  | .error _ => c'.chunks = c.chunks ∧ c'.records = c.records
  | .ok d => c'.records = c.records ++ d.records ∧ Told c.chunks c'.chunks ending left d

namespace Channel.Kept

variable {c : Channel} {ending : Option FrameError} {left : List UInt8}

theorem closed (h : c.Kept ending left)
    (hc : (c.source.ended || c.source.reader.fault.isSome) = true) :
    (c.source.drain []).2 = c.source ∧ (c.source.drain []).1.records = [] ∧
      Told c.chunks c.chunks ending left (c.source.drain []).1 := by
  have hended := h.ended
  cases hover : c.source.ended with
  | true =>
    have hmem : [] ∈ c.chunks := by simpa [hover] using hended.symm
    simp only [RecordSource.drain, hover, if_true, true_and]
    exact ⟨by simp [hmem], fun hno => absurd hmem hno, fun _ => ⟨h.sound hover, rfl⟩,
      fun _ hno => absurd hmem hno⟩
  | false =>
    have hmem : [] ∉ c.chunks := by simpa [hover] using hended.symm
    rw [hover, Bool.false_or] at hc
    simp only [RecordSource.drain, hover, hc, if_true, Bool.false_eq_true, if_false, true_and]
    exact ⟨by simp [hmem], fun _ => h.fault hover, fun hin => absurd hin hmem,
      fun hin => absurd hin hmem⟩

theorem drain (h : c.Kept ending left) (ho : c.source.ended = false)
    (hf : c.source.reader.fault = none) (next : Nat) (chunk : List UInt8) :
    ∃ ending' left', Kept ⟨(c.source.drain chunk).2, next, c.chunks ++ [chunk],
        c.records ++ (c.source.drain chunk).1.records⟩ ending' left' ∧
      Told c.chunks (c.chunks ++ [chunk]) ending' left' (c.source.drain chunk).1 := by
  obtain ⟨⟨⟨buffer, fault⟩, ended⟩, now, chunks, records⟩ := c
  obtain ⟨hreads, hended, hfault, hholds, -⟩ := h
  simp only at ho hf hended hfault hholds hreads ⊢
  subst ho hf
  obtain rfl := hfault rfl
  obtain rfl := hholds rfl
  have hnone : [] ∉ chunks := by simpa using hended.symm
  by_cases hchunk : chunk = []
  · have hfinish : (RecordReader.finish ⟨buffer, none⟩).2.buffer = buffer := by
      by_cases hbuffer : buffer = [] <;> simp [RecordReader.finish, hbuffer]
    have hend : RecordSource.drain ⟨⟨buffer, none⟩, false⟩ [] =
        ({ fault := if buffer = [] then none
              else some ⟨.kTruncated, foundExpected "bytes left" buffer.length 0⟩,
           endOfStream := true }, ⟨(RecordReader.finish ⟨buffer, none⟩).2, true⟩) := by
      by_cases hbuffer : buffer = [] <;> simp [RecordSource.drain, RecordReader.finish, hbuffer]
    refine ⟨none, buffer, ?_⟩
    rw [hchunk, hend]
    exact ⟨⟨by simpa using hreads, by simp, by simp, fun _ => hfinish, by simp⟩,
      ⟨by simp, by simp, fun _ => ⟨rfl, rfl⟩, fun _ _ => rfl⟩⟩
  · obtain ⟨more, ending, left, hmore, hdrain⟩ := drain_reads (buffer ++ chunk)
    have hall := hreads.resume look_stable hmore
    have hnext : RecordSource.drain ⟨⟨buffer, none⟩, false⟩ chunk =
        ({ records := more, fault := ending }, ⟨⟨left, ending⟩, false⟩) := by
      simp only [RecordSource.drain, RecordReader.feed, Bool.false_eq_true, if_false,
        Option.isSome_none, if_neg hchunk]
      rw [hdrain]
    have hmem : [] ∉ chunks ++ [chunk] := by simp [hnone, Ne.symm hchunk]
    refine ⟨ending, left, ?_⟩
    rw [hnext]
    exact ⟨⟨by simpa using hall, by simp [hmem], fun _ => rfl, fun _ => rfl, by simp⟩,
      ⟨by simp [hmem], fun _ => rfl, fun hin => absurd hin hmem, fun hin => absurd hin hmem⟩⟩

variable (answers : Nat → Except SyscallError (List UInt8))

theorem call (h : c.Kept ending left) :
    ∃ ending' left', (c.call answers).2.Kept ending' left' ∧
      c.Answered (c.call answers).2 ending' left' (c.call answers).1 := by
  rw [Channel.call]
  split_ifs with hclosed
  · obtain ⟨hsame, hnone, htold⟩ := h.closed hclosed
    refine ⟨ending, left, ?_, rfl, htold⟩
    simp only [hsame, hnone, List.append_nil]
    exact h
  · simp only [Bool.or_eq_true, not_or, Bool.not_eq_true, Option.isSome_eq_false_iff,
      Option.isNone_iff_eq_none] at hclosed
    generalize Cli.retry answers (kMaxConsecutiveInterrupts - 1) c.next = result
    obtain ⟨_ | chunk, next⟩ := result
    · exact ⟨ending, left, ⟨h.reads, h.ended, h.fault, h.holds, h.sound⟩, rfl, rfl⟩
    · obtain ⟨ending', left', hkept, htold⟩ := h.drain hclosed.1 hclosed.2 next chunk
      exact ⟨ending', left', hkept, rfl, htold⟩

theorem after (calls : Nat) : ∃ ending left, (Channel.after answers calls).Kept ending left := by
  induction calls with
  | zero => exact ⟨none, [], .stop rfl, rfl, fun _ => rfl, fun _ => rfl, fun _ => rfl⟩
  | succ calls ih =>
    obtain ⟨ending, left, h⟩ := ih
    obtain ⟨ending', left', hkept, -⟩ := h.call answers
    exact ⟨ending', left', hkept⟩

end Channel.Kept

/-- The records a writer has put into a pipe, each whatever its writes were answered. -/
inductive Sent (fd : Int) : List Record → List UInt8 → Prop
  | nothing : Sent fd [] []
  | next {records : List Record} {pipe : List UInt8} (write : Nat → Except SyscallError Nat)
    (r : Record) (h : Sent fd records pipe)
    (hok : (send fd write r.type r.payload pipe).2 = .ok ()) :
    Sent fd (records ++ [r]) (send fd write r.type r.payload pipe).1

section

variable {fd : Int} {records : List Record} {pipe : List UInt8}

theorem send_spec (fd : Int) (write : Nat → Except SyscallError Nat) (r : Record)
    (pipe : List UInt8) :
    (send fd write r.type r.payload pipe).1 = pipe ∧
        (send fd write r.type r.payload pipe).2 ≠ .ok () ∨
      r.payload.length ≤ kMaxPayloadBytes ∧ ∃ written,
        (send fd write r.type r.payload pipe).1 = pipe ++ written ∧ written <+: frame r ∧
        ((send fd write r.type r.payload pipe).2 = .ok () → written = frame r) := by
  rw [send, encode]
  split_ifs with hlong
  · exact .inl ⟨rfl, by simp⟩
  · exact .inr ⟨Nat.le_of_not_lt hlong, writeAll_spec fd write 0 _ pipe⟩

theorem Sent.pipe_eq (h : Sent fd records pipe) :
    pipe = records.flatMap frame ∧ ∀ r ∈ records, r.payload.length ≤ kMaxPayloadBytes := by
  induction h with
  | nothing => exact ⟨rfl, List.forall_mem_nil _⟩
  | @next records pipe write r h hok ih =>
    obtain ⟨hpipe, hfit⟩ := ih
    obtain ⟨-, hnot⟩ | ⟨hroom, written, hsent, -, hall⟩ := send_spec fd write r pipe
    · exact absurd hok hnot
    · rw [hsent, hall hok, hpipe, List.flatMap_append, List.flatMap_singleton]
      exact ⟨rfl, List.forall_mem_append.mpr ⟨hfit, List.forall_mem_singleton.mpr hroom⟩⟩

/-- A source returns what was sent, whatever the calls on either side answer: nothing else, also
where the last record was sent in part, and all of it once it is read. -/
theorem pipe_delivers_what_was_sent (h : Sent fd records pipe)
    (write : Nat → Except SyscallError Nat) (r : Record)
    (answers : Nat → Except SyscallError (List UInt8)) (calls : Nat) (c : Channel)
    (hc : Channel.after answers calls = c)
    (hread : c.chunks.flatten <+: (send fd write r.type r.payload pipe).1) :
    c.records <+: records ++ [r] ∧ (pipe <+: c.chunks.flatten → records <+: c.records) ∧
      (c.source.ended = false → c.source.reader.fault = none) := by
  obtain ⟨hpipe, hfit⟩ := h.pipe_eq
  obtain ⟨ending, left, hkept⟩ := Channel.Kept.after answers calls
  rw [hc] at hkept
  have hpart : ∀ rs : List Record, (∀ r ∈ rs, r.payload.length ≤ kMaxPayloadBytes) →
      c.chunks.flatten <+: rs.flatMap frame → c.records <+: rs ∧ ending = none := by
    intro rs hrs hpre
    have hreads := reads_take hrs c.chunks.flatten.length
    rw [← List.prefix_iff_eq_take.mp hpre] at hreads
    obtain ⟨hrecords, hending, -⟩ := hkept.reads.unique hreads
    obtain ⟨k, hk⟩ := whole_eq_take (f := frame) c.chunks.flatten.length rs
    rw [hrecords, hk]
    exact ⟨List.take_prefix k rs, hending⟩
  have hsent : c.records <+: records ++ [r] ∧ ending = none := by
    obtain ⟨hsame, -⟩ | ⟨hroom, written, hwritten, hpre, -⟩ := send_spec fd write r pipe
    · rw [hsame, hpipe] at hread
      obtain ⟨hrecords, hending⟩ := hpart records hfit hread
      exact ⟨hrecords.trans (List.prefix_append _ _), hending⟩
    · apply hpart _ (List.forall_mem_append.mpr ⟨hfit, List.forall_mem_singleton.mpr hroom⟩)
      rw [List.flatMap_append, List.flatMap_singleton, ← hpipe]
      rw [hwritten] at hread
      exact hread.trans (List.prefix_append_right_inj pipe |>.mpr hpre)
  refine ⟨hsent.1, ?_, fun hopen => (hkept.fault hopen).trans hsent.2⟩
  rintro ⟨rest, hrest⟩
  obtain ⟨more, _, _, hmore, -⟩ := drain_reads rest
  have hall := Reads.flatMap (fun r hr rest => look_frame r rest (hfit r hr)) hmore
  rw [← hpipe, hrest] at hall
  rw [(hkept.reads.unique hall).1]
  exact List.prefix_append records more

end

def twoReads (n : Nat) : Except SyscallError (List UInt8) :=
  .ok (if n = 0 then (frame ⟨7, [1]⟩).take 4
    else (frame ⟨7, [1]⟩).drop 4 ++ (frame ⟨8, [2, 3]⟩).take 5)

/-- One record is sent whole and of the next a part is read. -/
theorem pipe_delivers_a_record :
    (Channel.after twoReads 2).records <+: [⟨7, [1]⟩, ⟨8, [2, 3]⟩] ∧
      [⟨7, [1]⟩] <+: (Channel.after twoReads 2).records := by
  have hok : (send 3 (fun _ => .ok 64) 7 [1] []).2 = .ok () := by
    simp [send, encode, kMaxPayloadBytes, writeAll, Cli.retry, kMaxConsecutiveInterrupts, frame,
      headerFields, leBytes]
  obtain ⟨hfirst, hall, -⟩ := pipe_delivers_what_was_sent
    (Sent.next (fun _ => .ok 64) ⟨7, [1]⟩ Sent.nothing hok) (fun _ => .ok 64) ⟨8, [2, 3]⟩ twoReads 2 _
    rfl (by decide +kernel)
  exact ⟨hfirst, hall (by decide +kernel)⟩

end LoadForge.Ipc
