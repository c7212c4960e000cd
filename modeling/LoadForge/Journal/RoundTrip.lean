import LoadForge.Journal.Format

namespace LoadForge.Journal

open LoadForge.Core Framework List Option

/-- What the writer takes, with the elapsed time that a run's clock gives. -/
structure Writable (e : Entry) : Prop where
  elapsed : 0 ≤ e.elapsedNs
  phase : e.phase.length ≤ kMaxLabelBytes
  workload : e.workload.length ≤ kMaxLabelBytes

theorem take_append (count : Nat) (field rest : List UInt8) (hl : field.length = count) :
    take count (field ++ rest) = some (field, rest) := by
  have hle : count ≤ (field ++ rest).length := by
    rw [length_append]
    omega
  rw [take, if_pos hle, take_left' hl, drop_left' hl]

theorem number_leBytes (width value : Nat) (rest : List UInt8) (hv : value < 256 ^ width) :
    number width (leBytes width value ++ rest) = some (value, rest) := by
  rw [number, take_append width _ rest (leBytes_length width value)]
  simp [leNat_leBytes_of_lt width value hv]

theorem takeLabel_putLabel (label rest : List UInt8) (hl : label.length ≤ kMaxLabelBytes) :
    takeLabel (putLabel label ++ rest) = some (label, rest) := by
  have hv : label.length < 256 ^ 1 := by
    have hmax : kMaxLabelBytes = 64 := rfl
    omega
  have hn := number_leBytes 1 label.length (label ++ rest) hv
  rw [takeLabel, putLabel, append_assoc, hn]
  simp only [bind_eq_bind, bind_some, if_neg (Nat.not_lt.mpr hl)]
  exact take_append label.length label rest rfl

theorem presentBits_lt (os : List (Option UInt64)) : presentBits os < 2 ^ os.length := by
  induction os with
  | nil => simp [presentBits]
  | cons o os ih =>
    have ho : o.isSome.toNat ≤ 1 := Bool.toNat_le _
    simp [presentBits]
    omega

theorem takeOptionals_putOptional (os : List (Option UInt64)) (rest : List UInt8) :
    takeOptionals os.length (presentBits os) (os.flatMap putOptional ++ rest) =
      some (os, rest) := by
  induction os with
  | nil => rfl
  | cons o os ih =>
    have hn := number_leBytes 8 (o.getD 0).toNat (os.flatMap putOptional ++ rest)
      (o.getD 0).toNat_lt
    rw [length_cons, flatMap_cons, append_assoc, takeOptionals]
    rw [putOptional, hn]
    cases o with
    | none =>
      have hmod : presentBits (none :: os) % 2 ≠ 1 := by
        simp only [presentBits, isSome_none, Bool.toNat_false]
        omega
      have hdiv : presentBits (none :: os) / 2 = presentBits os := by
        simp only [presentBits, isSome_none, Bool.toNat_false]
        omega
      simp [hmod, hdiv, ih]
    | some value =>
      have hmod : presentBits (some value :: os) % 2 = 1 := by
        simp only [presentBits, isSome_some, Bool.toNat_true]
        omega
      have hdiv : presentBits (some value :: os) / 2 = presentBits os := by
        simp only [presentBits, isSome_some, Bool.toNat_true]
        omega
      simp [hmod, hdiv, ih]

theorem decodeEntry_encodeEntry (e : Entry) (he : Writable e) :
    decodeEntry (encodeEntry e) = some e := by
  have hpresent : presentBits e.optionals < 2 ^ kOptionalFields := presentBits_lt e.optionals
  have hp256 : presentBits e.optionals < 256 ^ 1 := by
    have hfields : 2 ^ kOptionalFields = 64 := rfl
    omega
  have helapsed : ¬ e.elapsedNs < 0 := Int64.not_lt.mpr he.elapsed
  have hopts := fun rest => takeOptionals_putOptional e.optionals rest
  have hstale := number_leBytes 4 e.workersStale.toNat [] e.workersStale.toNat_lt
  rw [append_nil] at hstale
  rw [encodeEntry, decodeEntry, take_append 1 [kEntry] _ rfl]
  simp only [bind_eq_bind, bind_some]
  rw [number_leBytes 8 _ _ e.elapsedNs.toUInt64.toNat_lt]
  simp only [bind_some, UInt64.ofNat_toNat, Int64.toInt64_toUInt64, if_neg helapsed]
  rw [number_leBytes 1 _ _ hp256]
  simp only [bind_some, if_neg (Nat.not_le.mpr hpresent)]
  rw [takeLabel_putLabel _ _ he.phase]
  simp only [bind_some]
  rw [takeLabel_putLabel _ _ he.workload]
  simp only [bind_some]
  rw [show kOptionalFields = e.optionals.length from rfl, hopts]
  simp only [bind_some]
  rw [number_leBytes 4 _ _ e.workersAlive.toNat_lt]
  simp only [bind_some, hstale, Entry.optionals, UInt32.ofNat_toNat]
  rfl

theorem flatMap_putOptional_length (os : List (Option UInt64)) :
    (os.flatMap putOptional).length = 8 * os.length := by
  induction os with
  | nil => rfl
  | cons o os ih =>
    simp [putOptional, leBytes_length, ih]
    omega

theorem encodeEntry_length (e : Entry) :
    (encodeEntry e).length = kEntryFixedBytes + e.phase.length + e.workload.length := by
  simp only [encodeEntry, putLabel, length_append, leBytes_length,
    flatMap_putOptional_length, Entry.optionals, length_cons, length_nil,
    kEntryFixedBytes, kOptionalFields]
  omega

theorem frame_length (payload : List UInt8) :
    (frame payload).length = kHeaderBytes + payload.length := by
  simp [frame, leBytes_length, kHeaderBytes]
  omega

theorem frame_ne_nil (payload : List UInt8) : frame payload ≠ [] := by
  have hl := frame_length payload
  intro h
  rw [h] at hl
  simp [kHeaderBytes] at hl
  omega

theorem look_header (lengthBytes checkBytes body : List UInt8) (hl : lengthBytes.length = 4)
    (hc : checkBytes.length = 4) :
    look (lengthBytes ++ (checkBytes ++ body)) =
      if leNat lengthBytes = 0 ∨ kMaxPayloadBytes < leNat lengthBytes then .stop .kCorrupt
      else if body.length < leNat lengthBytes then
        .stop (if couldBeCutShort body (leNat lengthBytes) then .kTornTail else .kCorrupt)
      else if (check lengthBytes (body.take (leNat lengthBytes))).toNat ≠ leNat checkBytes then
        .stop .kCorrupt
      else lookPayload (body.take (leNat lengthBytes)) (body.drop (leNat lengthBytes)) := by
  have hne : lengthBytes ++ (checkBytes ++ body) ≠ [] := by
    intro h
    rw [append_eq_nil_iff] at h
    rw [h.1] at hl
    simp at hl
  have hlen : (lengthBytes ++ (checkBytes ++ body)).length = kHeaderBytes + body.length := by
    simp [hl, hc, kHeaderBytes]
    omega
  have hnot : ¬ (lengthBytes ++ (checkBytes ++ body)).length < kHeaderBytes := by omega
  have hsub : (lengthBytes ++ (checkBytes ++ body)).length - kHeaderBytes = body.length := by
    omega
  have htake : (lengthBytes ++ (checkBytes ++ body)).take 4 = lengthBytes := take_left' hl
  have hdrop4 : (lengthBytes ++ (checkBytes ++ body)).drop 4 = checkBytes ++ body := drop_left' hl
  have hdrop : (lengthBytes ++ (checkBytes ++ body)).drop kHeaderBytes = body := by
    rw [← append_assoc]
    apply drop_left'
    simp [hl, hc, kHeaderBytes]
  have hafter : (lengthBytes ++ (checkBytes ++ body)).drop
      (kHeaderBytes + leNat lengthBytes) = body.drop (leNat lengthBytes) := by
    rw [← drop_drop, hdrop]
  have hcheck : (checkBytes ++ body).take 4 = checkBytes := take_left' hc
  simp only [look, endingOfShortRecord, if_neg hne, if_neg hnot, hsub, htake, hdrop4, hdrop,
    hafter, hcheck]

theorem leNat_length (payload : List UInt8) (hl : payload.length ≤ kMaxPayloadBytes) :
    leNat (leBytes 4 payload.length) = payload.length := by
  apply leNat_leBytes_of_lt
  have hmax : kMaxPayloadBytes = 512 := rfl
  omega

/-- A record that is all there is read as its payload, whatever follows it. -/
theorem look_frame (payload rest : List UInt8) (hpos : payload ≠ [])
    (hl : payload.length ≤ kMaxPayloadBytes) :
    look (frame payload ++ rest) = lookPayload payload rest := by
  have hlen : 0 < payload.length := length_pos_iff.mpr hpos
  have hbad : ¬ (payload.length = 0 ∨ kMaxPayloadBytes < payload.length) := by omega
  have hshort : ¬ (payload ++ rest).length < payload.length := by
    rw [length_append]
    omega
  have hsum : leNat (leBytes 4 (check (leBytes 4 payload.length) payload).toNat) =
      (check (leBytes 4 payload.length) payload).toNat :=
    leNat_leBytes_of_lt 4 _ (check _ payload).toNat_lt
  rw [frame, append_assoc, append_assoc,
    look_header _ _ _ (leBytes_length 4 _) (leBytes_length 4 _), leNat_length payload hl,
    if_neg hbad, if_neg hshort, take_left' rfl, drop_left' rfl, hsum]
  simp

def entryRecord (e : Entry) : List UInt8 := frame (encodeEntry e)

def terminatorRecord : List UInt8 := frame terminatorPayload

theorem encodeEntry_length_le (e : Entry) (he : Writable e) :
    (encodeEntry e).length ≤ kMaxPayloadBytes := by
  have hp := he.phase
  have hw := he.workload
  rw [encodeEntry_length]
  simp only [kMaxLabelBytes] at hp hw
  simp only [kEntryFixedBytes, kOptionalFields, kMaxPayloadBytes]
  omega

theorem lookPayload_entry (payload after : List UInt8) (hfirst : payload.getD 0 0 = kEntry) :
    (decodeEntry payload = none ∧ lookPayload payload after = .stop .kCorrupt) ∨
      ∃ e, decodeEntry payload = some e ∧ lookPayload payload after = .record e after := by
  have hkind : kEntry ≠ kTerminator := by decide
  rw [lookPayload, hfirst, if_neg hkind, if_pos rfl]
  cases decodeEntry payload with
  | none => exact Or.inl ⟨rfl, rfl⟩
  | some e => exact Or.inr ⟨e, rfl, rfl⟩

theorem look_entryRecord (e : Entry) (rest : List UInt8) (he : Writable e) :
    look (entryRecord e ++ rest) = .record e rest := by
  have hne : encodeEntry e ≠ [] := by simp [encodeEntry]
  have hdecode := decodeEntry_encodeEntry e he
  rw [entryRecord, look_frame _ rest hne (encodeEntry_length_le e he)]
  rcases lookPayload_entry (encodeEntry e) rest rfl with ⟨hnone, -⟩ | ⟨e', hsome, hlook⟩
  · rw [hdecode] at hnone
    cases hnone
  · rw [hdecode] at hsome
    cases hsome
    exact hlook

theorem look_terminatorRecord (rest : List UInt8) :
    look (terminatorRecord ++ rest) =
      .stop (if rest = [] then .kTerminated else .kCorrupt) := by
  rw [terminatorRecord, look_frame _ rest (by simp [terminatorPayload]) (by decide), lookPayload]
  simp [terminatorPayload]

end LoadForge.Journal
