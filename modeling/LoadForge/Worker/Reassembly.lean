import LoadForge.Worker.RecordReader

namespace LoadForge.Ipc

open LoadForge.Core Framework Worker List RecordReader

theorem headerFields_length (r : Record) : (headerFields r).length = kChecksumOffset := by
  simp [headerFields, kChecksumOffset]

theorem frame_length (r : Record) : (frame r).length = kFrameHeaderBytes + r.payload.length := by
  simp [frame, headerFields_length, leBytes_length, kChecksumOffset, kFrameHeaderBytes]
  omega

theorem field_append (front value rest : List UInt8) (offset width : Nat)
    (hf : front.length = offset) (hv : value.length = width) :
    field (front ++ (value ++ rest)) offset width = leNat value := by
  rw [field, drop_left' hf, take_left' hv]

theorem field_leBytes (front rest : List UInt8) {offset width n : Nat}
    (hf : front.length = offset) (hn : n < 256 ^ width) :
    field (front ++ (leBytes width n ++ rest)) offset width = n := by
  rw [field_append _ _ _ _ _ hf (leBytes_length width n), leNat_leBytes_of_lt width n hn]

section Header

variable (r : Record) (rest : List UInt8)

theorem field_magic : field (headerFields r ++ rest) 0 4 = kFrameMagic.toNat := by
  simp only [headerFields, append_assoc]
  exact field_leBytes [] _ rfl kFrameMagic.toNat_lt

theorem field_version : field (headerFields r ++ rest) 4 2 = kFrameVersion.toNat := by
  simp only [headerFields, append_assoc]
  exact field_leBytes _ _ (leBytes_length 4 _) kFrameVersion.toNat_lt

theorem field_type : field (headerFields r ++ rest) 6 2 = r.type.toNat := by
  simp only [headerFields, append_assoc]
  rw [← append_assoc]
  exact field_leBytes _ _ (by simp) r.type.toNat_lt

theorem field_length (hl : r.payload.length ≤ kMaxPayloadBytes) :
    field (headerFields r ++ rest) 8 4 = r.payload.length := by
  have hmax : kMaxPayloadBytes = 65536 := rfl
  simp only [headerFields, append_assoc]
  rw [← append_assoc, ← append_assoc]
  exact field_leBytes _ _ (by simp) (by omega)

theorem look_parts (head checksum body : List UInt8) (hh : head.length = kChecksumOffset)
    (hc : checksum.length = 4) :
    (head ++ (checksum ++ body)).length = kFrameHeaderBytes + body.length ∧
      (head ++ (checksum ++ body)).drop kFrameHeaderBytes = body ∧
      field (head ++ (checksum ++ body)) kChecksumOffset 4 = leNat checksum ∧
      ∀ payload, checksumOf ((head ++ (checksum ++ body)).take kFrameHeaderBytes) payload =
        checksumOf head payload := by
  have hlen : (head ++ checksum).length = kFrameHeaderBytes := by
    rw [length_append, hh, hc]
    rfl
  refine ⟨?_, ?_, field_append head checksum body kChecksumOffset 4 hh hc, ?_⟩
  · rw [← append_assoc, length_append, hlen]
  · rw [← append_assoc]
    exact drop_left' hlen
  · intro payload
    have hmin : min kChecksumOffset kFrameHeaderBytes = kChecksumOffset := rfl
    rw [checksumOf, checksumOf, take_take, hmin, take_left' hh, take_of_length_le (by omega)]

theorem look_header (checksum body : List UInt8) (hc : checksum.length = 4)
    (hl : r.payload.length ≤ kMaxPayloadBytes) :
    look (headerFields r ++ (checksum ++ body)) =
      if body.length < r.payload.length then .stop none
      else if leNat checksum ≠
          (checksumOf (headerFields r) (body.take r.payload.length)).toNat then
        .stop (some ⟨.kBadChecksum, foundExpected "checksum" (leNat checksum)
          (checksumOf (headerFields r) (body.take r.payload.length)).toNat⟩)
      else .record ⟨r.type, body.take r.payload.length⟩ (body.drop r.payload.length) := by
  obtain ⟨hlen, hdrop, hstored, hcomputed⟩ :=
    look_parts (headerFields r) checksum body (headerFields_length r) hc
  have hshort : (kFrameHeaderBytes + body.length < kFrameHeaderBytes + r.payload.length) ↔
      body.length < r.payload.length := by omega
  simp only [look, hlen, if_neg (show ¬ kFrameHeaderBytes + body.length < kFrameHeaderBytes by omega),
    field_magic, field_version, field_type, field_length r _ hl, ne_eq, not_true_eq_false, if_false,
    if_neg (Nat.not_lt.mpr hl), hshort, ← drop_drop, hdrop, hstored, hcomputed,
    UInt16.ofNat_toNat]

theorem look_frame (hl : r.payload.length ≤ kMaxPayloadBytes) :
    look (frame r ++ rest) = .record r rest := by
  have hsum := leNat_leBytes_of_lt 4 _ (checksumOf (headerFields r) r.payload).toNat_lt
  rw [frame, append_assoc, append_assoc,
    look_header r _ _ (leBytes_length 4 _) hl, if_neg (by simp), take_left' rfl,
    drop_left' rfl, hsum, if_neg (by simp)]

end Header

section Back

variable {bytes : List UInt8}

theorem leBytes_field {offset width : Nat} (h : offset + width ≤ bytes.length) :
    leBytes width (field bytes offset width) = (bytes.drop offset).take width := by
  have hlength : ((bytes.drop offset).take width).length = width := by
    rw [length_take, length_drop]
    omega
  have hback := leBytes_leNat ((bytes.drop offset).take width)
  rwa [hlength] at hback

theorem headerFields_eq (hlen : kFrameHeaderBytes ≤ bytes.length)
    (hmagic : field bytes 0 4 = kFrameMagic.toNat)
    (hversion : field bytes 4 2 = kFrameVersion.toNat) (payload : List UInt8)
    (hlength : payload.length = field bytes 8 4) :
    headerFields ⟨UInt16.ofNat (field bytes 6 2), payload⟩ = bytes.take kChecksumOffset := by
  have hheader : kFrameHeaderBytes = 16 := rfl
  have htype : field bytes 6 2 < 2 ^ 16 := by
    have hlt := leNat_lt ((bytes.drop 6).take 2)
    rwa [length_take, length_drop, Nat.min_eq_left (by omega)] at hlt
  rw [headerFields, ← hmagic, ← hversion, UInt16.toNat_ofNat_of_lt' htype, hlength,
    leBytes_field (by omega), leBytes_field (by omega), leBytes_field (by omega),
    leBytes_field (by omega), show kChecksumOffset = 4 + (2 + (2 + 4)) from rfl, take_add, take_add,
    take_add, drop_drop, drop_drop, drop_zero]

/-- What a reader takes for a record is the record's frame. -/
theorem look_record {r : Record} {rest : List UInt8} (h : look bytes = .record r rest) :
    bytes = frame r ++ rest ∧ r.payload.length ≤ kMaxPayloadBytes := by
  have hheader : kFrameHeaderBytes = 16 := rfl
  simp only [look] at h
  split_ifs at h with hshort hmagic hversion hlong hbody hsum
  cases h
  rw [not_not] at hmagic hversion hsum
  have hlength : ((bytes.drop kFrameHeaderBytes).take (field bytes 8 4)).length = field bytes 8 4 := by
    rw [length_take, length_drop]
    omega
  have hsplit : bytes.take kFrameHeaderBytes =
      bytes.take kChecksumOffset ++ (bytes.drop kChecksumOffset).take 4 := by
    rw [show kFrameHeaderBytes = kChecksumOffset + 4 from rfl, take_add]
  have hchecksum (payload : List UInt8) : checksumOf (bytes.take kChecksumOffset) payload =
      checksumOf (bytes.take kFrameHeaderBytes) payload := by
    rw [checksumOf, checksumOf, take_take, take_take]
    rfl
  refine ⟨?_, Nat.le_trans (Nat.le_of_eq hlength) (Nat.le_of_not_lt hlong)⟩
  rw [frame, headerFields_eq (Nat.le_of_not_lt hshort) hmagic hversion _ hlength, hchecksum, ← hsum,
    leBytes_field (show kChecksumOffset + 4 ≤ _ from Nat.le_of_not_lt hshort), ← append_assoc,
    ← hsplit, append_assoc, ← drop_drop, take_append_drop, take_append_drop]

/-- The bytes end in a header, or in the payload that a good header announces. -/
def Waits (bytes : List UInt8) : Prop :=
  bytes.length < kFrameHeaderBytes ∨ ∃ r : Record, r.payload.length ≤ kMaxPayloadBytes ∧
    headerFields r <+: bytes ∧ bytes.length < (frame r).length

theorem look_waits_iff : look bytes = .stop none ↔ Waits bytes := by
  constructor
  · intro h
    simp only [look] at h
    split_ifs at h with hshort hmagic hversion hlong hbody hsum
    on_goal 1 => exact .inl hshort
    on_goal 4 =>
      rw [not_not] at hmagic hversion
      have hlength := length_replicate (n := field bytes 8 4) (a := (0 : UInt8))
      refine .inr ⟨⟨UInt16.ofNat (field bytes 6 2), replicate (field bytes 8 4) 0⟩, ?_, ?_, ?_⟩
      · exact hlength.symm ▸ Nat.le_of_not_lt hlong
      · rw [headerFields_eq (Nat.le_of_not_lt hshort) hmagic hversion _ hlength]
        exact List.take_prefix _ _
      · rwa [frame_length, hlength]
    all_goals cases h
  · rintro (hshort | ⟨r, hfit, ⟨tail, rfl⟩, hlt⟩)
    · rw [look, if_pos hshort]
    · by_cases htail : tail.length < 4
      · rw [look, if_pos]
        rw [length_append, headerFields_length]
        exact Nat.add_lt_add_left htail _
      · have hsum : (tail.take 4).length = 4 := length_take_of_le (Nat.le_of_not_lt htail)
        rw [frame_length, length_append, headerFields_length] at hlt
        have hheader : kFrameHeaderBytes = kChecksumOffset + 4 := rfl
        rw [← take_append_drop 4 tail, look_header r _ _ hsum hfit, if_pos]
        rw [length_drop]
        omega

theorem look_take_frame (r : Record) (k : Nat) (hl : r.payload.length ≤ kMaxPayloadBytes)
    (hk : k < (frame r).length) : look ((frame r).take k) = .stop none := by
  have hkept : ((frame r).take k).length = k := length_take_of_le (Nat.le_of_lt hk)
  rw [look_waits_iff, Waits, hkept]
  by_cases hheader : k < kFrameHeaderBytes
  · exact .inl hheader
  · refine .inr ⟨r, hl, prefix_take_iff.mpr ⟨prefix_append _ _, ?_⟩, hk⟩
    rw [headerFields_length]
    exact Nat.le_trans (by decide) (Nat.le_of_not_lt hheader)

end Back

theorem drain_eq (rounds : Nat) (buffer : List UInt8) :
    drain rounds ⟨buffer, none⟩ =
      ((scanWith look none rounds buffer).records, (scanWith look none rounds buffer).ending,
        ⟨(scanWith look none rounds buffer).rest, (scanWith look none rounds buffer).ending⟩) := by
  induction rounds generalizing buffer with
  | zero => rfl
  | succ rounds ih =>
    cases hlook : look buffer with
    | stop ending =>
      cases ending with
      | none => simp only [drain, RecordReader.next, scanWith, hlook]
      | some fault => simp only [drain, RecordReader.next, scanWith, hlook]
    | record r rest =>
      simp only [drain, RecordReader.next, scanWith, hlook, ih]

theorem field_more (bytes more : List UInt8) (offset width : Nat)
    (hle : offset + width ≤ bytes.length) :
    field (bytes ++ more) offset width = field bytes offset width := by
  rw [field, field, drop_append_of_le_length (by omega),
    take_append_of_le_length (by rw [length_drop]; omega)]

theorem look_stable : Stable look none := by
  intro bytes more hne
  have hheader : kFrameHeaderBytes = 16 := rfl
  have hsum : kChecksumOffset = 12 := rfl
  by_cases hshort : bytes.length < kFrameHeaderBytes
  · exact absurd (by rw [look, if_pos hshort]) hne
  have hlen := @length_append _ bytes more
  simp only [look, if_neg hshort] at hne
  simp only [look, if_neg hshort, if_neg (show ¬ (bytes ++ more).length < kFrameHeaderBytes by omega),
    field_more bytes more 0 4 (by omega), field_more bytes more 4 2 (by omega),
    field_more bytes more 6 2 (by omega), field_more bytes more 8 4 (by omega),
    field_more bytes more kChecksumOffset 4 (by omega)]
  by_cases hbody : bytes.length < kFrameHeaderBytes + field bytes 8 4
  · rw [if_pos hbody] at hne ⊢
    split_ifs at hne ⊢ <;> first | rfl | exact absurd rfl hne
  · have hpayload : ((bytes ++ more).drop kFrameHeaderBytes).take (field bytes 8 4) =
        (bytes.drop kFrameHeaderBytes).take (field bytes 8 4) := by
      rw [drop_append_of_le_length (by omega),
        take_append_of_le_length (by rw [length_drop]; omega)]
    have hlong : ¬ (bytes ++ more).length < kFrameHeaderBytes + field bytes 8 4 := by omega
    rw [hpayload, take_append_of_le_length (by omega), drop_append_of_le_length (by omega)]
    simp only [if_neg hbody, if_neg hlong]
    split_ifs <;> rfl

theorem look_shorter (bytes rest : List UInt8) (r : Record) (h : look bytes = .record r rest) :
    rest.length < bytes.length := by
  rw [(look_record h).1, length_append, frame_length, kFrameHeaderBytes]
  omega

theorem drain_reads (buffer : List UInt8) :
    ∃ records ending left, Reads look buffer records ending left ∧
      drain (buffer.length + 1) ⟨buffer, none⟩ = (records, ending, ⟨left, ending⟩) := by
  obtain ⟨records, ending, left, h, hle⟩ := @exists_reads _ _ look
    (fun bytes r rest => look_shorter bytes rest r) buffer
  refine ⟨records, ending, left, h, ?_⟩
  rw [drain_eq, h.scan _ (by omega)]

/-- However the bytes were cut into chunks, they are read as one. -/
theorem receive_reads (chunks : List (List UInt8)) (buffer : List UInt8)
    (hwait : look buffer = .stop none) :
    ∃ records ending reader left, receive ⟨buffer, none⟩ chunks =
        (records, ending, reader) ∧
      Reads look (buffer ++ chunks.flatten) records ending left ∧ reader.fault = ending ∧
      (ending = none → reader.buffer = left) := by
  induction chunks generalizing buffer with
  | nil =>
    refine ⟨[], none, ⟨buffer, none⟩, buffer, rfl, ?_, rfl, fun _ => rfl⟩
    rw [flatten_nil, append_nil]
    exact .stop hwait
  | cons chunk chunks ih =>
    obtain ⟨records, ending, left, h, hdrain⟩ := drain_reads (buffer ++ chunk)
    simp only [receive, feed, hdrain, flatten_cons, ← append_assoc]
    cases ending with
    | some fault =>
      exact ⟨records, some fault, _, _, rfl, h.extend look_stable (by simp), rfl, by simp⟩
    | none =>
      obtain ⟨more, ending, reader, left', hrest, h', hfault, hleft⟩ := ih left h.last
      simp only [hrest]
      exact ⟨_, ending, reader, left', rfl, h.resume look_stable h', hfault, hleft⟩

section Cut

variable {rs : List Record} (hrs : ∀ r ∈ rs, r.payload.length ≤ kMaxPayloadBytes)
include hrs

theorem look_torn (n : Nat) : look (torn frame n rs) = .stop none := by
  rcases torn_eq (f := frame) n rs with hnil | ⟨r, hr, k, -, hlt, heq⟩
  · rw [hnil]
    rfl
  · rw [heq]
    exact look_take_frame r k (hrs r hr) hlt

theorem reads_take (n : Nat) :
    Reads look ((rs.flatMap frame).take n) (whole frame n rs) none (torn frame n rs) := by
  have hwhole : ∀ r ∈ whole frame n rs, ∀ rest, look (frame r ++ rest) = .record r rest := by
    intro r hr rest
    obtain ⟨k, hk⟩ := whole_eq_take (f := frame) n rs
    rw [hk] at hr
    exact look_frame r rest (hrs r (mem_of_mem_take hr))
  have hreads := Reads.flatMap hwhole (.stop (look_torn hrs n))
  rwa [← take_flatMap_eq, append_nil] at hreads

/-- What one chunk brings: the records whose frames it completes, and what is left of the next. -/
theorem drain_records (buffer : List UInt8) (n : Nat)
    (hb : buffer = (rs.flatMap frame).take n) :
    drain (buffer.length + 1) ⟨buffer, none⟩ =
      (whole frame n rs, none, ⟨torn frame n rs, none⟩) := by
  obtain ⟨records, ending, left, h, hdrain⟩ := drain_reads buffer
  rw [hb] at h
  obtain ⟨rfl, rfl, rfl⟩ := h.unique (reads_take hrs n)
  exact hdrain

theorem receive_prefix (chunks : List (List UInt8)) (n : Nat)
    (hb : chunks.flatten = (rs.flatMap frame).take n) :
    receive {} chunks = (whole frame n rs, none, ⟨torn frame n rs, none⟩) := by
  obtain ⟨records, ending, reader, left, hreceive, h, hfault, hleft⟩ := receive_reads chunks [] rfl
  rw [nil_append, hb] at h
  obtain ⟨rfl, rfl, rfl⟩ := h.unique (reads_take hrs n)
  obtain ⟨buffer, fault⟩ := reader
  rw [hreceive, show buffer = _ from hleft rfl, show fault = _ from hfault]

theorem torn_eq_nil_iff (n : Nat) :
    torn frame n rs = [] ↔ ∃ k, (rs.flatMap frame).take n = (rs.take k).flatMap frame := by
  constructor
  · intro hnil
    obtain ⟨k, hk⟩ := whole_eq_take (f := frame) n rs
    exact ⟨k, by rw [take_flatMap_eq, hnil, append_nil, hk]⟩
  · rintro ⟨k, hk⟩
    have hcut := reads_take hrs n
    have hwhole : Reads look ((rs.take k).flatMap frame ++ []) (rs.take k ++ []) none [] :=
      .flatMap (fun r hr rest => look_frame r rest (hrs r (mem_of_mem_take hr))) (.stop rfl)
    rw [hk, ← append_nil ((rs.take k).flatMap frame)] at hcut
    exact (hcut.unique hwhole).2.2

end Cut

/-- The records come out whatever the pieces; of a cut stream those whose frames are whole, and
whether the end was between two. -/
theorem reassembly_of_any_chunks (rs : List Record)
    (hrs : ∀ r ∈ rs, r.payload.length ≤ kMaxPayloadBytes) :
    (∀ r ∈ rs, encode r.type r.payload = .ok (frame r)) ∧
      (∀ chunks : List (List UInt8), chunks.flatten = rs.flatMap frame →
        ∃ reader, RecordReader.receive {} chunks = (rs, none, reader) ∧
          reader.finish.1 = .ok ()) ∧
      ∀ (n : Nat) (chunks : List (List UInt8)), n < (rs.flatMap frame).length →
        chunks.flatten = (rs.flatMap frame).take n →
        ∃ reader, RecordReader.receive {} chunks = (whole frame n rs, none, reader) ∧
          (reader.finish.1 = .ok () ↔ ∃ k, chunks.flatten = (rs.take k).flatMap frame) ∧
          ((¬ ∃ k, chunks.flatten = (rs.take k).flatMap frame) →
            ∃ detail, reader.finish.1 = .error ⟨.kTruncated, detail⟩) := by
  refine ⟨?_, ?_, ?_⟩
  · intro r hr
    rw [encode, if_neg (Nat.not_lt.mpr (hrs r hr))]
  · intro chunks hb
    have hlen : (rs.flatMap frame).length ≤ (rs.flatMap frame).length := Nat.le_refl _
    have hall : chunks.flatten = (rs.flatMap frame).take (rs.flatMap frame).length := by
      rw [take_length, hb]
    have hreceive := receive_prefix hrs chunks _ hall
    rw [whole_of_le _ rs hlen, torn_of_le _ rs hlen] at hreceive
    exact ⟨_, hreceive, rfl⟩
  · intro n chunks _ hb
    have hboundary := torn_eq_nil_iff hrs n
    rw [← hb] at hboundary
    refine ⟨_, receive_prefix hrs chunks n hb, ?_, ?_⟩
    · rw [← hboundary]
      by_cases hnil : torn frame n rs = []
      · simp [finish, hnil]
      · simp [finish, hnil]
    · intro hinside
      have hnil : torn frame n rs ≠ [] := fun h => hinside (hboundary.mp h)
      refine ⟨foundExpected "bytes left" (torn frame n rs).length 0, ?_⟩
      simp only [finish, if_pos hnil]

/-- Two records whose first frame ends inside the second chunk. -/
theorem two_records_in_three_chunks :
    ∃ reader, RecordReader.receive {} [(frame ⟨17, [1, 2]⟩).take 7,
        (frame ⟨17, [1, 2]⟩).drop 7 ++ (frame ⟨3, []⟩).take 1, (frame ⟨3, []⟩).drop 1] =
      ([⟨17, [1, 2]⟩, ⟨3, []⟩], none, reader) ∧ reader.finish.1 = .ok () := by
  have hrs : ∀ r ∈ [(⟨17, [1, 2]⟩ : Record), ⟨3, []⟩], r.payload.length ≤ kMaxPayloadBytes := by
    decide
  apply (reassembly_of_any_chunks [⟨17, [1, 2]⟩, ⟨3, []⟩] hrs).2.1
  decide +kernel

end LoadForge.Ipc
