import LoadForge.Core.CrcDetect
import LoadForge.Journal.CutLaw

namespace LoadForge.Journal

open LoadForge.Core Framework List Option

theorem take_eq_some (count : Nat) (bytes field rest : List UInt8)
    (h : take count bytes = some (field, rest)) : bytes = field ++ rest ∧ field.length = count := by
  rw [take] at h
  split_ifs at h with hle
  cases h
  exact ⟨(take_append_drop count bytes).symm, by rw [length_take]; omega⟩

theorem number_eq_some (width value : Nat) (bytes rest : List UInt8)
    (h : number width bytes = some (value, rest)) :
    ∃ field, bytes = field ++ rest ∧ field.length = width ∧ leNat field = value := by
  rw [number, map_eq_some_iff] at h
  obtain ⟨⟨field, rest'⟩, htake, heq⟩ := h
  cases heq
  obtain ⟨hbytes, hlen⟩ := take_eq_some width bytes field rest htake
  exact ⟨field, hbytes, hlen, rfl⟩

theorem takeLabel_eq_some (bytes label rest : List UInt8)
    (h : takeLabel bytes = some (label, rest)) :
    ∃ size : UInt8, bytes = size :: (label ++ rest) ∧ size.toNat = label.length := by
  simp only [takeLabel, bind_eq_bind, bind_eq_some_iff] at h
  obtain ⟨⟨size, rest'⟩, hnumber, hrest⟩ := h
  obtain ⟨field, hbytes, hlen, hvalue⟩ := number_eq_some 1 size bytes rest' hnumber
  obtain ⟨b, rfl⟩ := length_eq_one_iff.mp hlen
  dsimp only at hrest
  split_ifs at hrest
  obtain ⟨hsplit, hlabel⟩ := take_eq_some _ _ _ _ hrest
  refine ⟨b, by rw [hbytes, hsplit]; rfl, ?_⟩
  rw [hlabel, ← hvalue]
  rfl

theorem takeOptionals_eq_some (count present : Nat) (bytes rest : List UInt8)
    (os : List (Option UInt64)) (h : takeOptionals count present bytes = some (os, rest)) :
    ∃ fields, bytes = fields ++ rest ∧ fields.length = 8 * count := by
  induction count generalizing present bytes os with
  | zero =>
    cases h
    exact ⟨[], rfl, rfl⟩
  | succ count ih =>
    simp only [takeOptionals, bind_eq_bind, bind_eq_some_iff] at h
    obtain ⟨⟨value, rest'⟩, hnumber, hrest⟩ := h
    obtain ⟨field, hbytes, hlen, -⟩ := number_eq_some 8 value bytes rest' hnumber
    have hmore : ∃ os', takeOptionals count (present / 2) rest' = some (os', rest) := by
      split_ifs at hrest
      · obtain ⟨⟨os', rest''⟩, hos, heq⟩ := bind_eq_some_iff.mp hrest
        cases heq
        exact ⟨os', hos⟩
      · obtain ⟨⟨os', rest''⟩, hos, heq⟩ := bind_eq_some_iff.mp hrest
        cases heq
        exact ⟨os', hos⟩
    obtain ⟨os', hos⟩ := hmore
    obtain ⟨fields, hfields, hcount⟩ := ih (present / 2) rest' os' hos
    refine ⟨field ++ fields, by rw [hbytes, hfields, append_assoc], ?_⟩
    rw [length_append]
    omega

/-- The sizes of an entry's labels, where the payload keeps them, give its length. -/
def declaredLength (payload : List UInt8) : Nat :=
  kEntryFixedBytes + (payload.getD kPhaseSizeAt 0).toNat +
    (payload.getD (kPhaseSizeAt + 1 + (payload.getD kPhaseSizeAt 0).toNat) 0).toNat

theorem decodeEntry_length (payload : List UInt8) (e : Entry) (h : decodeEntry payload = some e) :
    payload.length = declaredLength payload := by
  simp only [decodeEntry, bind_eq_bind, bind_eq_some_iff] at h
  obtain ⟨⟨kind, r1⟩, htype, ⟨elapsed, r2⟩, helapsed, h⟩ := h
  split_ifs at h
  obtain ⟨⟨present, r3⟩, hpresent, h⟩ := bind_eq_some_iff.mp h
  split_ifs at h
  simp only [bind_eq_some_iff] at h
  obtain ⟨⟨phase, r4⟩, hphase, ⟨workload, r5⟩, hworkload, ⟨os, r6⟩, hos, ⟨alive, r7⟩, halive,
    ⟨stale, r8⟩, hstale, h⟩ := h
  obtain ⟨h1, hl1⟩ := take_eq_some _ _ _ _ htype
  obtain ⟨f2, h2, hl2, -⟩ := number_eq_some _ _ _ _ helapsed
  obtain ⟨f3, h3, hl3, -⟩ := number_eq_some _ _ _ _ hpresent
  obtain ⟨s4, h4, hl4⟩ := takeLabel_eq_some _ _ _ hphase
  obtain ⟨s5, h5, hl5⟩ := takeLabel_eq_some _ _ _ hworkload
  obtain ⟨f6, h6, hl6⟩ := takeOptionals_eq_some _ _ _ _ _ hos
  obtain ⟨f7, h7, hl7, -⟩ := number_eq_some _ _ _ _ halive
  obtain ⟨f8, h8, hl8, -⟩ := number_eq_some _ _ _ _ hstale
  have hnil : r8 = [] := by
    dsimp only at h
    split at h
    · rfl
    · cases h
  simp only at h1 h2 h3 h4 h5 h6 h7 h8
  let front := kind ++ (f2 ++ f3)
  let back := f6 ++ (f7 ++ f8)
  have hfront : front.length = kPhaseSizeAt := by
    simp [front, hl1, hl2, hl3, kPhaseSizeAt]
  have hback : back.length = 56 := by
    simp [back, hl6, hl7, hl8, kOptionalFields]
  have hshape : payload = front ++ (s4 :: (phase ++ (s5 :: (workload ++ back)))) := by
    rw [h1, h2, h3, h4, h5, h6, h7, h8, hnil]
    simp [front, back]
  have hsize : payload.getD kPhaseSizeAt 0 = s4 := by
    rw [hshape, getD_append_right _ _ _ _ (by omega), hfront, Nat.sub_self, getD_cons_zero]
  have hsize' : payload.getD (kPhaseSizeAt + 1 + phase.length) 0 = s5 := by
    have hindex : kPhaseSizeAt + 1 + phase.length - front.length = phase.length + 1 := by omega
    rw [hshape, getD_append_right _ _ _ _ (by omega), hindex, getD_cons_succ,
      getD_append_right _ _ _ _ (Nat.le_refl _), Nat.sub_self, getD_cons_zero]
  rw [declaredLength, hsize, hl4, hsize', hl5]
  rw [hshape]
  simp [hfront, hback, kPhaseSizeAt, kEntryFixedBytes, kOptionalFields]
  omega

theorem declaredLength_take (e : Entry) (he : Writable e) (after : List UInt8) (n : Nat)
    (hn : ((encodeEntry e ++ after).take n).length =
      declaredLength ((encodeEntry e ++ after).take n)) :
    ((encodeEntry e ++ after).take n).length = (encodeEntry e).length := by
  have hlen := encodeEntry_length e
  have hphase := encodeEntry_phaseSize e he
  have hworkload := encodeEntry_workloadSize e he
  have hmin : ((encodeEntry e ++ after).take n).length =
      min n ((encodeEntry e).length + after.length) := by
    simp
  have hfixed : kEntryFixedBytes = 68 := rfl
  have hat : kPhaseSizeAt = 10 := rfl
  have hten : ((encodeEntry e ++ after).take n).getD kPhaseSizeAt 0 =
      (encodeEntry e).getD kPhaseSizeAt 0 := by
    rw [declaredLength] at hn
    rw [getD_take _ n _ (by omega), getD_append _ _ _ _ (by omega)]
  rw [declaredLength, hten, hphase] at hn
  rw [getD_take _ n _ (by omega), getD_append _ _ _ _ (by omega), hworkload] at hn
  omega

theorem look_changed_body (payload after : List UInt8) (i : Nat) (v : UInt8) (hpos : payload ≠ [])
    (hl : payload.length ≤ kMaxPayloadBytes) (hlo : 4 ≤ i) (hi : i < (frame payload).length)
    (hv : v ≠ (frame payload).getD i 0) :
    look ((frame payload).set i v ++ after) = .stop .kCorrupt := by
  have hplen : 0 < payload.length := length_pos_iff.mpr hpos
  have hbad : ¬ (payload.length = 0 ∨ kMaxPayloadBytes < payload.length) := by omega
  have hset := set_ne_self _ i v hi hv
  let lb := leBytes 4 payload.length
  let cb := leBytes 4 (check lb payload).toNat
  have hlb : lb.length = 4 := leBytes_length 4 _
  have hcb : cb.length = 4 := leBytes_length 4 _
  have hsum : leNat cb = (check lb payload).toNat := leNat_leBytes_of_lt 4 _ (check lb payload).toNat_lt
  have hframe : frame payload = lb ++ (cb ++ payload) := rfl
  rw [hframe] at hset ⊢
  by_cases hcheck : i < 8
  · have hsplit : (lb ++ (cb ++ payload)).set i v = lb ++ (cb.set (i - 4) v ++ payload) := by
      rw [set_append_right _ _ (by omega), set_append_left _ _ (by omega), hlb]
    rw [hsplit] at hset ⊢
    have hcb' : cb.set (i - 4) v ≠ cb := fun h => hset (by rw [h])
    have hstored : (check lb payload).toNat ≠ leNat (cb.set (i - 4) v) := by
      rw [← hsum]
      exact fun h => hcb' (leNat_inj _ _ (by simp) h.symm)
    rw [append_assoc, append_assoc, look_header _ _ _ hlb (by simp [hcb]),
      leNat_length payload hl, if_neg hbad, if_neg (by simp), take_left' rfl, if_pos hstored]
  · have hsplit : (lb ++ (cb ++ payload)).set i v = lb ++ (cb ++ payload.set (i - 8) v) := by
      rw [set_append_right _ _ (by omega), set_append_right _ _ (by omega), hlb, hcb]
      rfl
    rw [hsplit] at hset ⊢
    have hp' : payload.set (i - 8) v ≠ payload := fun h => hset (by rw [h])
    have hcomputed : (check lb (payload.set (i - 8) v)).toNat ≠ leNat cb := by
      intro h
      rw [hsum, UInt32.toNat_inj] at h
      exact crc32Update_set_ne _ payload (i - 8) v hp' h
    have hsame : (payload.set (i - 8) v).length = payload.length := length_set
    rw [append_assoc, append_assoc, look_header _ _ _ hlb hcb,
      leNat_length payload hl, if_neg hbad, if_neg (by simp), take_left' hsame,
      if_pos hcomputed]

theorem frame_set_length (payload after : List UInt8) (i : Nat) (v : UInt8) (hi : i < 4) :
    (frame payload).set i v ++ after = (leBytes 4 payload.length).set i v ++
      (leBytes 4 (check (leBytes 4 payload.length) payload).toNat ++ (payload ++ after)) := by
  rw [frame, set_append_left _ _ (by simpa using hi), append_assoc, append_assoc]

theorem leNat_set_length_ne (payload : List UInt8) (i : Nat) (v : UInt8) (hi : i < 4)
    (hl : payload.length ≤ kMaxPayloadBytes) (hv : v ≠ (frame payload).getD i 0) :
    leNat ((leBytes 4 payload.length).set i v) ≠ payload.length := by
  have hv' : v ≠ (leBytes 4 payload.length).getD i 0 := by
    rw [frame, getD_append _ _ _ _ (by simpa using hi)] at hv
    exact hv
  have hset := set_ne_self (leBytes 4 payload.length) i v (by simpa using hi) hv'
  intro h
  apply hset
  apply leNat_inj _ _ (by simp)
  rw [h, leNat_length payload hl]

/-- A record whose length has one byte changed is taken neither for another nor for one cut short.
-/
theorem look_changed_length (e : Entry) (he : Writable e) (after : List UInt8) (i : Nat) (v : UInt8)
    (hi : i < 4) (hv : v ≠ (entryRecord e).getD i 0) :
    look ((entryRecord e).set i v ++ after) = .stop .kCorrupt := by
  have hne := leNat_set_length_ne (encodeEntry e) i v hi (encodeEntry_length_le e he) hv
  have hlen := encodeEntry_length e
  have hphase := encodeEntry_phaseSize e he
  have hworkload := encodeEntry_workloadSize e he
  rw [entryRecord, frame_set_length _ after i v hi,
    look_header _ _ _ (by simp) (leBytes_length 4 _)]
  generalize leNat ((leBytes 4 (encodeEntry e).length).set i v) = n at hne ⊢
  have hfixed : kEntryFixedBytes = 68 := rfl
  have hat : kPhaseSizeAt = 10 := rfl
  have hbody : (encodeEntry e ++ after).length = (encodeEntry e).length + after.length :=
    length_append
  split_ifs with hbad hshort hcould hcheck
  · rfl
  · exfalso
    have hp' : ((encodeEntry e ++ after).getD kPhaseSizeAt 0).toNat = e.phase.length := by
      rw [getD_append _ _ _ _ (by omega), hphase]
    have hw' : ((encodeEntry e ++ after).getD (kPhaseSizeAt + 1 + e.phase.length) 0).toNat =
        e.workload.length := by
      rw [getD_append _ _ _ _ (by omega), hworkload]
    rw [couldBeCutShort_sized _ _ (by simp [encodeEntry]) rfl _ _ hp' hw' (by omega)] at hcould
    omega
  · rfl
  · rfl
  · have hfirst : ((encodeEntry e ++ after).take n).getD 0 0 = kEntry := by
      rw [getD_take _ n 0 (by omega)]
      rfl
    rcases lookPayload_entry _ ((encodeEntry e ++ after).drop n) hfirst with
      ⟨-, hlook⟩ | ⟨e', hdecode, -⟩
    · exact hlook
    · exfalso
      have hdeclared := declaredLength_take e he after n (decodeEntry_length _ e' hdecode)
      rw [length_take] at hdeclared
      omega

theorem look_changed_entry (e : Entry) (he : Writable e) (after : List UInt8) (i : Nat) (v : UInt8)
    (hi : i < (entryRecord e).length) (hv : v ≠ (entryRecord e).getD i 0) :
    look ((entryRecord e).set i v ++ after) = .stop .kCorrupt := by
  by_cases hlo : i < 4
  · exact look_changed_length e he after i v hlo hv
  · exact look_changed_body (encodeEntry e) after i v (by simp [encodeEntry])
      (encodeEntry_length_le e he) (by omega) hi hv

theorem look_changed_terminator (i : Nat) (v : UInt8) (hi : i < terminatorRecord.length)
    (hv : v ≠ terminatorRecord.getD i 0) :
    look (terminatorRecord.set i v) = .stop .kCorrupt := by
  have hnil : terminatorRecord.set i v = terminatorRecord.set i v ++ [] := by simp
  rw [hnil]
  by_cases hlo : i < 4
  · have hne := leNat_set_length_ne terminatorPayload i v hlo (by decide) hv
    rw [terminatorRecord, frame_set_length _ [] i v hlo,
      look_header _ _ _ (by simp) (leBytes_length 4 _)]
    generalize leNat ((leBytes 4 terminatorPayload.length).set i v) = n at hne ⊢
    have hone : (terminatorPayload ++ []).length = 1 := rfl
    have hcould : couldBeCutShort (terminatorPayload ++ []) n = false := by
      simp [couldBeCutShort, terminatorPayload, kTerminator, kEntry]
    rw [hone, hcould]
    have hplen : terminatorPayload.length = 1 := rfl
    by_cases hbad : n = 0 ∨ kMaxPayloadBytes < n
    · rw [if_pos hbad]
    · rw [if_neg hbad, if_pos (by omega)]
      rfl
  · exact look_changed_body terminatorPayload [] i v (by simp [terminatorPayload]) (by decide)
      (by omega) hi hv

/-- Whichever byte is changed, the entries before its record are read and the rest is corrupt. -/
theorem changed_byte_reads_corrupt (es : List Entry) (closing : Option Synced)
    (hes : ∀ e ∈ es, Writable e) (i : Nat) (v : UInt8)
    (hi : i < (journal es closing).bytes.length) (hv : v ≠ (journal es closing).bytes.getD i 0) :
    scan ((journal es closing).bytes.set i v) = ⟨whole entryRecord i es, .kCorrupt⟩ := by
  rw [journal_bytes es closing hes] at hi hv ⊢
  by_cases hin : i < (es.flatMap entryRecord).length
  · obtain ⟨e, es', j, hsplit, hj, hget, hset⟩ := set_flatMap_eq es i v hin
    have he : Writable e := hes e (by rw [hsplit]; simp)
    have hwhole : ∀ e ∈ whole entryRecord i es, Writable e := by
      intro e' he'
      exact hes e' (by rw [hsplit]; exact mem_append_left _ he')
    rw [getD_append _ _ _ _ hin, hget] at hv
    rw [set_append_left _ _ hin, hset, append_assoc, append_assoc]
    have hlook := look_changed_entry e he
      (es'.flatMap entryRecord ++ if closing.isSome then terminatorRecord else []) j v hj hv
    apply scan_records _ _ _ hwhole _ hlook
    intro hnil
    have hlen := congrArg length hnil
    simp only [length_append, length_set, length_nil] at hlen
    omega
  · cases closing with
    | none =>
      simp at hi
      simp at hin
      omega
    | some synced =>
      simp only [isSome_some, if_true, length_append] at hi hv ⊢
      have hwhole : whole entryRecord i es = es := whole_of_le i es (by omega)
      rw [getD_append_right _ _ _ _ (by omega)] at hv
      have hlook := look_changed_terminator _ v (by omega) hv
      rw [set_append_right _ _ (by omega), hwhole]
      apply scan_records es _ _ hes _ hlook
      intro hnil
      have hlen := congrArg length hnil
      simp only [length_append, length_set, length_nil] at hlen
      omega

theorem changed_length_of_second_record :
    scan ((journal [warmEntry, warmEntry] (some none)).bytes.set 80 73) =
      ⟨[warmEntry], .kCorrupt⟩ := by
  have hes : ∀ e ∈ [warmEntry, warmEntry], Writable e := by
    simp [warmEntry_writable]
  have hwhole : whole entryRecord 80 [warmEntry, warmEntry] = [warmEntry] := by decide +kernel
  rw [changed_byte_reads_corrupt [warmEntry, warmEntry] (some none) hes 80 73 (by decide +kernel)
    (by decide +kernel), hwhole]

end LoadForge.Journal
