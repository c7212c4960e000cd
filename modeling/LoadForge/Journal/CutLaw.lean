import LoadForge.Journal.Writer

namespace LoadForge.Journal

open Framework List

theorem encodeEntry_shape (e : Entry) : ∃ front back : List UInt8,
    front.length = kPhaseSizeAt ∧ front.getD 0 0 = kEntry ∧
      encodeEntry e = front ++ (UInt8.ofNat e.phase.length :: (e.phase ++
        (UInt8.ofNat e.workload.length :: (e.workload ++ back)))) := by
  refine ⟨[kEntry] ++ (leBytes 8 e.elapsedNs.toUInt64.toNat ++
    leBytes 1 (presentBits e.optionals)), e.optionals.flatMap putOptional ++
      (leBytes 4 e.workersAlive.toNat ++ leBytes 4 e.workersStale.toNat), ?_, rfl, ?_⟩
  · simp [kPhaseSizeAt]
  · simp [encodeEntry, putLabel, leBytes]

theorem encodeEntry_phaseSize (e : Entry) (he : Writable e) :
    ((encodeEntry e).getD kPhaseSizeAt 0).toNat = e.phase.length := by
  obtain ⟨front, back, hlen, -, heq⟩ := encodeEntry_shape e
  have hp := he.phase
  have hmax : kMaxLabelBytes = 64 := rfl
  rw [heq, getD_append_right _ _ _ _ (by omega), hlen, Nat.sub_self, getD_cons_zero,
    UInt8.toNat_ofNat']
  omega

theorem encodeEntry_workloadSize (e : Entry) (he : Writable e) :
    ((encodeEntry e).getD (kPhaseSizeAt + 1 + e.phase.length) 0).toNat = e.workload.length := by
  obtain ⟨front, back, hlen, -, heq⟩ := encodeEntry_shape e
  have hw := he.workload
  have hmax : kMaxLabelBytes = 64 := rfl
  have hindex : kPhaseSizeAt + 1 + e.phase.length - front.length = e.phase.length + 1 := by omega
  rw [heq, getD_append_right _ _ _ _ (by omega), hindex, getD_cons_succ,
    getD_append_right _ _ _ _ (Nat.le_refl _), Nat.sub_self, getD_cons_zero,
    UInt8.toNat_ofNat']
  omega

section Judged

variable (seen : List UInt8) (length : Nat) (hne : seen ≠ []) (hfirst : seen.getD 0 0 = kEntry)

include hne hfirst

/-- Bytes that begin as an entry does are judged by the label sizes that can be seen. -/
theorem couldBeCutShort_unsized (hl : seen.length ≤ kPhaseSizeAt) :
    couldBeCutShort seen length = true ↔
      kEntryFixedBytes ≤ length ∧ length ≤ kEntryFixedBytes + 2 * kMaxLabelBytes := by
  have hten : ¬ kPhaseSizeAt < seen.length := by omega
  simp only [couldBeCutShort, if_neg hne, hfirst, ne_eq, not_true_eq_false, if_false, if_neg hten,
    decide_eq_true_eq]

theorem couldBeCutShort_phase (phase : Nat) (hp : (seen.getD kPhaseSizeAt 0).toNat = phase)
    (hlo : kPhaseSizeAt < seen.length) (hhi : seen.length ≤ kPhaseSizeAt + 1 + phase) :
    couldBeCutShort seen length = true ↔ phase ≤ kMaxLabelBytes ∧
      kEntryFixedBytes + phase ≤ length ∧
        length ≤ kEntryFixedBytes + phase + kMaxLabelBytes := by
  have hmore : ¬ kPhaseSizeAt + 1 + phase < seen.length := by omega
  simp only [couldBeCutShort, if_neg hne, hfirst, ne_eq, not_true_eq_false, if_false, if_pos hlo,
    hp, if_neg hmore]
  split_ifs with hlong
  · simp only [false_iff]
    omega
  · simp
    omega

theorem couldBeCutShort_sized (phase workload : Nat)
    (hp : (seen.getD kPhaseSizeAt 0).toNat = phase)
    (hw : (seen.getD (kPhaseSizeAt + 1 + phase) 0).toNat = workload)
    (hl : kPhaseSizeAt + 1 + phase < seen.length) :
    couldBeCutShort seen length = true ↔ phase ≤ kMaxLabelBytes ∧ workload ≤ kMaxLabelBytes ∧
      length = kEntryFixedBytes + phase + workload := by
  have hlo : kPhaseSizeAt < seen.length := by omega
  simp only [couldBeCutShort, if_neg hne, hfirst, ne_eq, not_true_eq_false, if_false, if_pos hlo,
    hp, if_pos hl, hw]
  split_ifs with hlong hwide
  · simp only [false_iff]
    omega
  · simp only [false_iff]
    omega
  · simp
    omega

end Judged

theorem getD_take (bytes : List UInt8) (n i : Nat) (hi : i < n) :
    (bytes.take n).getD i 0 = bytes.getD i 0 := by
  simp only [getD_eq_getElem?_getD, getElem?_take, if_pos hi]

theorem couldBeCutShort_take (e : Entry) (he : Writable e) (n : Nat) :
    couldBeCutShort ((encodeEntry e).take n) (encodeEntry e).length = true := by
  have hp := he.phase
  have hw := he.workload
  have hlen := encodeEntry_length e
  have hphase := encodeEntry_phaseSize e he
  have hworkload := encodeEntry_workloadSize e he
  by_cases hne : (encodeEntry e).take n = []
  · simp [couldBeCutShort, hne]
  · have hn : 0 < n := by
      rcases Nat.eq_zero_or_pos n with rfl | hn
      · simp at hne
      · exact hn
    have hfirst : ((encodeEntry e).take n).getD 0 0 = kEntry := getD_take _ n 0 hn
    have hseen : ((encodeEntry e).take n).length = min n (encodeEntry e).length := length_take
    by_cases hten : ((encodeEntry e).take n).length ≤ kPhaseSizeAt
    · rw [couldBeCutShort_unsized _ _ hne hfirst hten]
      omega
    · have hp' : (((encodeEntry e).take n).getD kPhaseSizeAt 0).toNat = e.phase.length := by
        rw [getD_take _ n kPhaseSizeAt (by omega), hphase]
      by_cases hmore : kPhaseSizeAt + 1 + e.phase.length < ((encodeEntry e).take n).length
      · have hw' : (((encodeEntry e).take n).getD (kPhaseSizeAt + 1 + e.phase.length) 0).toNat =
            e.workload.length := by
          rw [getD_take _ n _ (by omega), hworkload]
        rw [couldBeCutShort_sized _ _ hne hfirst _ _ hp' hw' hmore]
        exact ⟨hp, hw, hlen⟩
      · rw [couldBeCutShort_phase _ _ hne hfirst _ hp' (by omega) (by omega)]
        omega

theorem terminatorRecord_eq : terminatorRecord = [1, 0, 0, 0, 129, 191, 76, 21, 2] := by
  decide +kernel

theorem frame_take (payload : List UInt8) (k : Nat) (hk : kHeaderBytes ≤ k) :
    (frame payload).take k = leBytes 4 payload.length ++
      (leBytes 4 (check (leBytes 4 payload.length) payload).toNat ++
        payload.take (k - kHeaderBytes)) := by
  have hk8 : k = 4 + (4 + (k - kHeaderBytes)) := by
    simp only [kHeaderBytes] at hk ⊢
    omega
  rw [frame]
  conv_lhs => rw [hk8]
  rw [List.take_append, List.take_append, leBytes_length, leBytes_length,
    take_of_length_le (by simp), take_of_length_le (by simp)]
  simp

theorem look_take_frame (payload : List UInt8) (k : Nat) (hpos : payload ≠ [])
    (hl : payload.length ≤ kMaxPayloadBytes)
    (hcut : ∀ n, couldBeCutShort (payload.take n) payload.length = true ∨ payload.length ≤ n)
    (hk : 0 < k) (hlt : k < (frame payload).length) :
    look ((frame payload).take k) = .stop .kTornTail := by
  have hlen := frame_length payload
  have hplen : 0 < payload.length := length_pos_iff.mpr hpos
  have hkept : ((frame payload).take k).length = k := by
    rw [length_take]
    omega
  by_cases hheader : k < kHeaderBytes
  · have hne : (frame payload).take k ≠ [] := by
      intro h
      rw [h] at hkept
      simp at hkept
      omega
    rw [look, if_neg hne, hkept, if_pos hheader]
  · have hsplit := frame_take payload k (by omega)
    have hbad : ¬ (payload.length = 0 ∨ kMaxPayloadBytes < payload.length) := by omega
    have hshort : (payload.take (k - kHeaderBytes)).length < payload.length := by
      rw [length_take]
      omega
    have hcould : couldBeCutShort (payload.take (k - kHeaderBytes)) payload.length = true := by
      rcases hcut (k - kHeaderBytes) with hc | hc
      · exact hc
      · omega
    rw [hsplit, look_header _ _ _ (leBytes_length 4 _) (leBytes_length 4 _),
      leNat_length payload hl, if_neg hbad, if_pos hshort, hcould, if_pos rfl]

theorem look_take_entryRecord (e : Entry) (he : Writable e) (k : Nat) (hk : 0 < k)
    (hlt : k < (entryRecord e).length) : look ((entryRecord e).take k) = .stop .kTornTail := by
  apply look_take_frame
  · simp [encodeEntry]
  · exact encodeEntry_length_le e he
  · exact fun n => Or.inl (couldBeCutShort_take e he n)
  · exact hk
  · exact hlt

theorem look_take_terminatorRecord (k : Nat) (hk : 0 < k) (hlt : k < terminatorRecord.length) :
    look (terminatorRecord.take k) = .stop .kTornTail := by
  apply look_take_frame
  · simp [terminatorPayload]
  · decide
  · intro n
    cases n with
    | zero => exact Or.inl rfl
    | succ n => exact Or.inr (by simp [terminatorPayload])
  · exact hk
  · exact hlt

theorem scan_records (es : List Entry) (tail : List UInt8) (ending : Ending)
    (hes : ∀ e ∈ es, Writable e) (hne : es.flatMap entryRecord ++ tail ≠ [])
    (ht : look tail = .stop ending) :
    scan (es.flatMap entryRecord ++ tail) = ⟨es, ending⟩ := by
  have hs : scanWith look .kCorrupt ((es.flatMap entryRecord ++ tail).length + 1)
      (es.flatMap entryRecord ++ tail) = ⟨es, ending, tail⟩ :=
    scanWith_flatMap_stop (fun e => frame_ne_nil (encodeEntry e)) es tail ending
      (fun e he rest => look_entryRecord e rest (hes e he)) ht
  rw [scan, if_neg hne]
  simp only [hs]

theorem scan_terminated (es : List Entry) (hes : ∀ e ∈ es, Writable e) :
    scan (es.flatMap entryRecord ++ terminatorRecord) = ⟨es, .kTerminated⟩ := by
  have hlook := look_terminatorRecord []
  rw [append_nil, if_pos rfl] at hlook
  exact scan_records es _ _ hes (by simp [terminatorRecord, frame_ne_nil]) hlook

/-- The journal of a run whose storage takes all of it. `closing` is the sync of its close. -/
def journal (es : List Entry) (closing : Option Synced) : FormatWriter :=
  match closing with
  | none => (⟨[], false⟩ : FormatWriter).appendAll es
  | some synced => (((⟨[], false⟩ : FormatWriter).appendAll es).close .ok synced).2

theorem journal_bytes (es : List Entry) (closing : Option Synced) (hes : ∀ e ∈ es, Writable e) :
    (journal es closing).bytes =
      es.flatMap entryRecord ++ (if closing.isSome then terminatorRecord else []) := by
  have hall := FormatWriter.appendAll_eq es ⟨[], false⟩ rfl hes
  cases closing with
  | none => simp [journal, hall]
  | some synced => simp [journal, hall, FormatWriter.close_ok]

theorem scan_boundary (es : List Entry) (hes : ∀ e ∈ es, Writable e) :
    scan (es.flatMap entryRecord) =
      ⟨es, if es.flatMap entryRecord = [] then .kEmpty else .kUnterminated⟩ := by
  by_cases hempty : es.flatMap entryRecord = []
  · have hnil : es = [] := by
      have hle := length_le_flatMap (f := entryRecord) (fun e => frame_ne_nil (encodeEntry e)) es
      rw [hempty] at hle
      exact length_eq_zero_iff.mp (Nat.le_zero.mp hle)
    rw [if_pos hempty, hnil]
    rfl
  · have hs := scan_records es [] .kUnterminated hes (by simpa using hempty) rfl
    rw [append_nil] at hs
    rw [if_neg hempty, hs]

/-- A journal that was cut is whole records and then nothing, or what reads as a torn tail. -/
theorem cut_cases (es : List Entry) (closing : Option Synced) (hes : ∀ e ∈ es, Writable e)
    (n : Nat) (hcut : ¬ (closing.isSome = true ∧ (journal es closing).bytes.length ≤ n)) :
    ∃ tail, (journal es closing).bytes.take n =
        (whole entryRecord n es).flatMap entryRecord ++ tail ∧
      (tail = [] ∨ tail ≠ [] ∧ look tail = .stop .kTornTail) := by
  rw [journal_bytes es closing hes] at hcut ⊢
  rw [length_append] at hcut
  rw [List.take_append, take_flatMap_eq, append_assoc]
  refine ⟨_, rfl, ?_⟩
  by_cases hn : (es.flatMap entryRecord).length < n
  · rw [torn_of_le n es (by omega), nil_append]
    cases closing with
    | none => exact Or.inl (by simp)
    | some synced =>
      simp only [Option.isSome_some, if_true, true_and] at hcut ⊢
      have hl : 0 < n - (es.flatMap entryRecord).length := by omega
      have hlt : n - (es.flatMap entryRecord).length < terminatorRecord.length := by omega
      have hlook := look_take_terminatorRecord _ hl hlt
      refine Or.inr ⟨?_, hlook⟩
      intro hnil
      rw [hnil] at hlook
      cases hlook
  · rw [Nat.sub_eq_zero_of_le (by omega), take_zero, append_nil]
    rcases torn_eq n es with hnil | ⟨e, he, k, hk, hlt, heq⟩
    · exact Or.inl hnil
    · have hlook := look_take_entryRecord e (hes e he) k hk hlt
      refine Or.inr ⟨?_, by rw [heq]; exact hlook⟩
      intro hnil
      rw [← heq, hnil] at hlook
      cases hlook

/-- A cut journal reads as the entries wholly before the cut, and its ending says where it was. -/
theorem cut_journal_replays (es : List Entry) (closing : Option Synced)
    (hes : ∀ e ∈ es, Writable e) (n : Nat) :
    (scan ((journal es closing).bytes.take n)).entries = whole entryRecord n es ∧
      ((scan ((journal es closing).bytes.take n)).ending = .kEmpty ↔
        (journal es closing).bytes.take n = []) ∧
      ((scan ((journal es closing).bytes.take n)).ending = .kTerminated ↔
        closing.isSome = true ∧ (journal es closing).bytes.length ≤ n) ∧
      ((scan ((journal es closing).bytes.take n)).ending = .kUnterminated ↔
        (journal es closing).bytes.take n ≠ [] ∧
          ∃ k, (journal es closing).bytes.take n = (es.take k).flatMap entryRecord) ∧
      ((scan ((journal es closing).bytes.take n)).ending = .kTornTail ↔
        ¬ (closing.isSome = true ∧ (journal es closing).bytes.length ≤ n) ∧
          ∀ k, (journal es closing).bytes.take n ≠ (es.take k).flatMap entryRecord) ∧
      (scan ((journal es closing).bytes.take n)).ending ≠ .kCorrupt := by
  have htake : ∀ k, scan ((es.take k).flatMap entryRecord) = ⟨es.take k,
      if (es.take k).flatMap entryRecord = [] then .kEmpty else .kUnterminated⟩ :=
    fun k => scan_boundary _ fun e he => hes e (mem_of_mem_take he)
  by_cases hall : closing.isSome = true ∧ (journal es closing).bytes.length ≤ n
  · have hbytes : (journal es closing).bytes = es.flatMap entryRecord ++ terminatorRecord := by
      rw [journal_bytes es closing hes, if_pos hall.1]
    have hkept : (journal es closing).bytes.take n = es.flatMap entryRecord ++ terminatorRecord := by
      rw [take_of_length_le hall.2, hbytes]
    have hwhole : whole entryRecord n es = es := by
      apply whole_of_le
      have hle := hall.2
      rw [hbytes, length_append] at hle
      omega
    have hne : es.flatMap entryRecord ++ terminatorRecord ≠ [] := by
      simp [terminatorRecord, frame_ne_nil]
    have hscan := scan_terminated es hes
    have hother : ∀ k, es.flatMap entryRecord ++ terminatorRecord ≠
        (es.take k).flatMap entryRecord := by
      intro k hk
      have hend := congrArg Replay.ending (htake k)
      rw [← hk, hscan] at hend
      simp only at hend
      split at hend <;> cases hend
    rw [hkept, hscan, hwhole]
    simp [hall, hne, hother]
  · obtain ⟨tail, hkept, hnil | ⟨hne, hlook⟩⟩ := cut_cases es closing hes n hall
    · obtain ⟨k, hk⟩ := whole_eq_take (f := entryRecord) n es
      rw [hnil, append_nil, hk] at hkept
      rw [hkept, htake k, hk]
      have hself : ∃ k', (es.take k).flatMap entryRecord = (es.take k').flatMap entryRecord :=
        ⟨k, rfl⟩
      have hnot : ¬ ∀ k', (es.take k).flatMap entryRecord ≠ (es.take k').flatMap entryRecord :=
        fun h => h k rfl
      by_cases hempty : (es.take k).flatMap entryRecord = []
      · rw [if_pos hempty]
        exact ⟨rfl, by simp [hempty], by simp [hall], by simp [hempty],
          by simp only [hnot, and_false, reduceCtorEq], by simp⟩
      · simp [hempty, hall, hself, hnot]
    · have hwritable : ∀ e ∈ whole entryRecord n es, Writable e := by
        obtain ⟨k, hk⟩ := whole_eq_take (f := entryRecord) n es
        rw [hk]
        exact fun e he => hes e (mem_of_mem_take he)
      have hfull : (whole entryRecord n es).flatMap entryRecord ++ tail ≠ [] := by
        simp [hne]
      have hscan := scan_records _ tail .kTornTail hwritable hfull hlook
      have hother : ∀ k, (whole entryRecord n es).flatMap entryRecord ++ tail ≠
          (es.take k).flatMap entryRecord := by
        intro k hk
        have hend := congrArg Replay.ending (htake k)
        rw [← hk, hscan] at hend
        simp only at hend
        split at hend <;> cases hend
      rw [hkept, hscan]
      simp [hall, hfull, hother]

def warmEntry : Entry := { elapsedNs := 5, phase := [119, 97, 114, 109], workersAlive := 1 }

theorem warmEntry_writable : Writable warmEntry where
  elapsed := by decide
  phase := by decide
  workload := by decide

theorem journal_cut_inside_second_record :
    (scan ((journal [warmEntry, warmEntry] (some none)).bytes.take 100)).entries = [warmEntry] := by
  have hes : ∀ e ∈ [warmEntry, warmEntry], Writable e := by
    simp [warmEntry_writable]
  have hwhole : whole entryRecord 100 [warmEntry, warmEntry] = [warmEntry] := by decide +kernel
  rw [(cut_journal_replays [warmEntry, warmEntry] (some none) hes 100).1, hwhole]

end LoadForge.Journal
