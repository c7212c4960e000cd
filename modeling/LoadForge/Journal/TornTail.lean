import LoadForge.Journal.CutLaw

namespace LoadForge.Journal

open Framework List

/-- A torn record with a terminator behind it still reads as one cut short. -/
def ReadsAsTorn (e : Entry) (written : Nat) : Prop :=
  kHeaderBytes ≤ written ∧
    (written ≤ 9 ∨
      (written = 10 ∧ 2 ≤ e.phase.length + e.workload.length ∧
        e.phase.length + e.workload.length ≤ 66) ∨
      (written = 11 ∧ 21 ≤ e.phase.length + e.workload.length ∧
        e.phase.length + e.workload.length ≤ 85) ∨
      ((written = 16 ∨ written = 17) ∧ e.phase.length + e.workload.length = 0) ∨
      (written = 18 ∧ e.phase.length + e.workload.length = 1) ∨
      (19 ≤ written ∧ written ≤ e.phase.length + 10) ∨
      (19 ≤ written ∧ e.phase.length + 11 ≤ written ∧ written ≤ e.phase.length + 19 ∧
        (terminatorRecord.getD (e.phase.length + 19 - written) 0).toNat = e.workload.length) ∨
      (e.phase.length + 20 ≤ written ∧
        written < e.phase.length + e.workload.length + kEntryFixedBytes - 1))

instance (e : Entry) (written : Nat) : Decidable (ReadsAsTorn e written) :=
  inferInstanceAs (Decidable (_ ∧ _))

/-- What a reader sees of a torn payload and the terminator behind it. -/
def seenBehind (e : Entry) (n : Nat) : List UInt8 := (encodeEntry e).take n ++ terminatorRecord

theorem terminatorRecord_length : terminatorRecord.length = 9 := by
  rw [terminatorRecord_eq]
  rfl

section Seen

variable (e : Entry) (he : Writable e) (n : Nat) (hn : n + 9 < (encodeEntry e).length)

include hn in
theorem seenBehind_length : (seenBehind e n).length = n + 9 := by
  rw [seenBehind, length_append, length_take, terminatorRecord_length]
  omega

include hn in
theorem seenBehind_ne_nil : seenBehind e n ≠ [] :=
  ne_nil_of_length_pos (by rw [seenBehind_length e n hn]; omega)

include hn in
theorem seenBehind_getD (i : Nat) :
    (seenBehind e n).getD i 0 =
      if i < n then (encodeEntry e).getD i 0 else terminatorRecord.getD (i - n) 0 := by
  have hl : ((encodeEntry e).take n).length = n := by
    rw [length_take]
    omega
  rw [seenBehind]
  split_ifs with hi
  · rw [getD_append _ _ _ _ (by omega), getD_take _ n i hi]
  · rw [getD_append_right _ _ _ _ (by omega), hl]

include hn in
theorem seenBehind_first : (seenBehind e n).getD 0 0 = kEntry := by
  rw [seenBehind_getD e n hn]
  split_ifs with h0
  · rfl
  · have hz : n = 0 := by omega
    rw [hz, terminatorRecord_eq]
    rfl

include he hn in
theorem couldBeCutShort_early (hearly : n ≤ 10) :
    couldBeCutShort (seenBehind e n) (encodeEntry e).length = true ↔
      ReadsAsTorn e (n + kHeaderBytes) := by
  have hp := he.phase
  have hw := he.workload
  have hlen := encodeEntry_length e
  have hsl := seenBehind_length e n hn
  have hfirst := seenBehind_first e n hn
  have hne := seenBehind_ne_nil e n hn
  have hat : kPhaseSizeAt = 10 := rfl
  have hpast : ∀ i, n ≤ i → (seenBehind e n).getD i 0 = terminatorRecord.getD (i - n) 0 := by
    intro i hi
    rw [seenBehind_getD e n hn, if_neg (by omega)]
  have hphase : ∀ phase, (terminatorRecord.getD (10 - n) 0).toNat = phase → 2 ≤ n →
      n ≤ phase + 2 → (couldBeCutShort (seenBehind e n) (encodeEntry e).length = true ↔
        phase ≤ kMaxLabelBytes ∧ kEntryFixedBytes + phase ≤ (encodeEntry e).length ∧
          (encodeEntry e).length ≤ kEntryFixedBytes + phase + kMaxLabelBytes) := by
    intro phase hsize hlo hhi
    apply couldBeCutShort_phase _ _ hne hfirst
    · rw [hpast kPhaseSizeAt hearly]
      exact hsize
    · omega
    · omega
  have hsized : ∀ phase workload, (terminatorRecord.getD (10 - n) 0).toNat = phase →
      (terminatorRecord.getD (11 + phase - n) 0).toNat = workload → phase + 2 < n →
      (couldBeCutShort (seenBehind e n) (encodeEntry e).length = true ↔
        phase ≤ kMaxLabelBytes ∧ workload ≤ kMaxLabelBytes ∧
          (encodeEntry e).length = kEntryFixedBytes + phase + workload) := by
    intro phase workload hsize hsize' hlo
    apply couldBeCutShort_sized _ _ hne hfirst
    · rw [hpast kPhaseSizeAt hearly]
      exact hsize
    · rw [hpast (kPhaseSizeAt + 1 + phase) (by omega)]
      exact hsize'
    · omega
  rw [terminatorRecord_eq] at hphase hsized
  simp only [ReadsAsTorn, kMaxLabelBytes, kHeaderBytes, kEntryFixedBytes, kOptionalFields] at *
  rcases (by omega : n ≤ 1 ∨ n = 2 ∨ n = 3 ∨ n = 4 ∨ n = 5 ∨ n = 6 ∨ n = 7 ∨ n = 8 ∨ n = 9 ∨ n = 10)
    with hn1 | rfl | rfl | rfl | rfl | rfl | rfl | rfl | rfl | rfl
  · rw [couldBeCutShort_unsized _ _ hne hfirst (by rw [hsl]; simp only [kPhaseSizeAt]; omega)]
    simp only [kMaxLabelBytes, kEntryFixedBytes, kOptionalFields]
    omega
  · rw [hphase 2 rfl (by omega) (by omega)]
    omega
  · rw [hphase 21 rfl (by omega) (by omega)]
    omega
  · rw [hphase 76 rfl (by omega) (by omega)]
    omega
  · rw [hphase 191 rfl (by omega) (by omega)]
    omega
  · rw [hphase 129 rfl (by omega) (by omega)]
    omega
  · rw [hsized 0 129 rfl rfl (by omega)]
    omega
  · rw [hsized 0 0 rfl rfl (by omega)]
    omega
  · rw [hsized 0 0 rfl rfl (by omega)]
    omega
  · rw [hsized 1 0 rfl rfl (by omega)]
    omega

include he hn in
/-- When a torn payload with a terminator behind it passes for the start of its record. -/
theorem couldBeCutShort_seenBehind :
    couldBeCutShort (seenBehind e n) (encodeEntry e).length = true ↔
      ReadsAsTorn e (n + kHeaderBytes) := by
  have hp := he.phase
  have hw := he.workload
  have hlen := encodeEntry_length e
  have hsl := seenBehind_length e n hn
  have hget := seenBehind_getD e n hn
  have hphase := encodeEntry_phaseSize e he
  have hworkload := encodeEntry_workloadSize e he
  have hne := seenBehind_ne_nil e n hn
  have hfirst := seenBehind_first e n hn
  by_cases hlate : 11 ≤ n
  · have hten : ((seenBehind e n).getD kPhaseSizeAt 0).toNat = e.phase.length := by
      rw [hget, if_pos (show kPhaseSizeAt < n from hlate), hphase]
    by_cases hmore : kPhaseSizeAt + 1 + e.phase.length < (seenBehind e n).length
    · by_cases hin : kPhaseSizeAt + 1 + e.phase.length < n
      · have hsize : ((seenBehind e n).getD (kPhaseSizeAt + 1 + e.phase.length) 0).toNat =
            e.workload.length := by
          rw [hget, if_pos hin, hworkload]
        rw [couldBeCutShort_sized _ _ hne hfirst _ _ hten hsize hmore]
        simp only [ReadsAsTorn, kMaxLabelBytes, kHeaderBytes, kEntryFixedBytes, kOptionalFields,
          kPhaseSizeAt] at *
        omega
      · have hsize : (seenBehind e n).getD (kPhaseSizeAt + 1 + e.phase.length) 0 =
            terminatorRecord.getD (e.phase.length + 19 - (n + kHeaderBytes)) 0 := by
          have hindex : kPhaseSizeAt + 1 + e.phase.length - n =
              e.phase.length + 19 - (n + kHeaderBytes) := by
            simp only [kPhaseSizeAt, kHeaderBytes]
            omega
          rw [hget, if_neg hin, hindex]
        rw [couldBeCutShort_sized _ _ hne hfirst _ _ hten (congrArg UInt8.toNat hsize) hmore]
        simp only [ReadsAsTorn, kMaxLabelBytes, kHeaderBytes, kEntryFixedBytes, kOptionalFields,
          kPhaseSizeAt] at *
        omega
    · rw [couldBeCutShort_phase _ _ hne hfirst _ hten (by rw [hsl]; simp only [kPhaseSizeAt]; omega)
        (by omega)]
      simp only [ReadsAsTorn, kMaxLabelBytes, kHeaderBytes, kEntryFixedBytes, kOptionalFields,
        kPhaseSizeAt] at *
      omega
  · exact couldBeCutShort_early e he n hn (by omega)

end Seen

theorem leBytes_four_of_lt (v : Nat) (hv : v < 256) : leBytes 4 v = [UInt8.ofNat v, 0, 0, 0] := by
  have hdiv : v / 256 = 0 := by omega
  simp [leBytes, hdiv]

section

variable (e : Entry) (he : Writable e)
include he

theorem encodeEntry_length_lt : 68 ≤ (encodeEntry e).length ∧ (encodeEntry e).length < 197 := by
  have hp := he.phase
  have hw := he.workload
  have hlen := encodeEntry_length e
  simp only [kMaxLabelBytes, kEntryFixedBytes, kOptionalFields] at *
  omega

theorem look_cut_header (k : Nat) (hpos : 0 < k)
    (hk : k < kHeaderBytes) :
    look ((entryRecord e).take k ++ terminatorRecord) = .stop .kCorrupt := by
  obtain ⟨hlo, hhi⟩ := encodeEntry_length_lt e he
  obtain ⟨c0, c1, c2, c3, hc⟩ : ∃ c0 c1 c2 c3 : UInt8,
      leBytes 4 (check (leBytes 4 (encodeEntry e).length) (encodeEntry e)).toNat =
        [c0, c1, c2, c3] := ⟨_, _, _, _, rfl⟩
  have hl : leNat [UInt8.ofNat (encodeEntry e).length, 0, 0, 0] = (encodeEntry e).length := by
    simp only [leNat, UInt8.toNat_ofNat']
    simp
    omega
  have hfirst : (UInt8.ofNat (encodeEntry e).length).toNat = (encodeEntry e).length := by
    rw [UInt8.toNat_ofNat']
    omega
  rw [entryRecord, frame, hc, leBytes_four_of_lt (encodeEntry e).length (by omega),
    terminatorRecord_eq]
  generalize hlen : UInt8.ofNat (encodeEntry e).length = b at *
  simp only [kHeaderBytes] at hk
  have hcut : ∀ size checks rest : List UInt8, size.length = 4 → checks.length = 4 →
      (encodeEntry e).length ≤ leNat size → leNat size < 500 → rest.length < 68 →
      couldBeCutShort rest (leNat size) = false →
      look (size ++ (checks ++ rest)) = .stop .kCorrupt := by
    intro size checks rest hsize hchecks hlow hhigh hrest hshort
    rw [look_header size checks rest hsize hchecks,
      if_neg (by simp only [kMaxPayloadBytes]; omega), if_pos (by omega), hshort]
    rfl
  rcases (by omega : k = 1 ∨ k = 2 ∨ k = 3 ∨ k = 4 ∨ k = 5 ∨ k = 6 ∨ k = 7) with
    rfl | rfl | rfl | rfl | rfl | rfl | rfl
  · have hn : leNat [b, 1, 0, 0] = (encodeEntry e).length + 256 := by
      simp only [leNat, hfirst]
      simp
    exact hcut [b, 1, 0, 0] [0, 129, 191, 76] [21, 2] rfl rfl (by omega) (by omega) (by decide) rfl
  · have h := look_header [b, 0, 1, 0] [0, 0, 129, 191] [76, 21, 2] rfl rfl
    have hn : leNat [b, 0, 1, 0] = (encodeEntry e).length + 65536 := by
      simp only [leNat, hfirst]
      simp
    rw [hn, if_pos (by simp only [kMaxPayloadBytes]; omega)] at h
    exact h
  · have h := look_header [b, 0, 0, 1] [0, 0, 0, 129] [191, 76, 21, 2] rfl rfl
    have hn : leNat [b, 0, 0, 1] = (encodeEntry e).length + 16777216 := by
      simp only [leNat, hfirst]
      simp
    rw [hn, if_pos (by simp only [kMaxPayloadBytes]; omega)] at h
    exact h
  · exact hcut [b, 0, 0, 0] [1, 0, 0, 0] [129, 191, 76, 21, 2] rfl rfl
      hl.ge (by omega) (by decide) rfl
  · exact hcut [b, 0, 0, 0] [c0, 1, 0, 0] [0, 129, 191, 76, 21, 2] rfl rfl
      hl.ge (by omega) (by decide) rfl
  · exact hcut [b, 0, 0, 0] [c0, c1, 1, 0] [0, 0, 129, 191, 76, 21, 2] rfl rfl
      hl.ge (by omega) (by decide) rfl
  · exact hcut [b, 0, 0, 0] [c0, c1, c2, 1] [0, 0, 0, 129, 191, 76, 21, 2] rfl rfl
      hl.ge (by omega) (by decide) rfl

theorem look_cut_payload (k : Nat) (hk : kHeaderBytes ≤ k) :
    look ((entryRecord e).take k ++ terminatorRecord) =
      if (seenBehind e (k - kHeaderBytes)).length < (encodeEntry e).length then
        .stop (if couldBeCutShort (seenBehind e (k - kHeaderBytes)) (encodeEntry e).length
          then .kTornTail else .kCorrupt)
      else if (check (leBytes 4 (encodeEntry e).length)
          ((seenBehind e (k - kHeaderBytes)).take (encodeEntry e).length)).toNat ≠
          leNat (leBytes 4 (check (leBytes 4 (encodeEntry e).length) (encodeEntry e)).toNat) then
        .stop .kCorrupt
      else lookPayload ((seenBehind e (k - kHeaderBytes)).take (encodeEntry e).length)
        ((seenBehind e (k - kHeaderBytes)).drop (encodeEntry e).length) := by
  obtain ⟨hlo, hhi⟩ := encodeEntry_length_lt e he
  have hbad : ¬ ((encodeEntry e).length = 0 ∨ kMaxPayloadBytes < (encodeEntry e).length) := by
    simp only [kMaxPayloadBytes]
    omega
  rw [entryRecord, frame_take _ k hk, append_assoc, append_assoc,
    look_header _ _ _ (leBytes_length 4 _) (leBytes_length 4 _),
    leNat_length _ (encodeEntry_length_le e he), if_neg hbad]
  rfl

theorem ReadsAsTorn.lt (k : Nat) (ht : ReadsAsTorn e k) : k + 1 < (encodeEntry e).length := by
  have hp := he.phase
  have hlen := encodeEntry_length e
  simp only [ReadsAsTorn, kMaxLabelBytes, kEntryFixedBytes, kOptionalFields, kHeaderBytes] at *
  omega

theorem look_torn (k : Nat) (ht : ReadsAsTorn e k) :
    look ((entryRecord e).take k ++ terminatorRecord) = .stop .kTornTail := by
  have hk : kHeaderBytes ≤ k := ht.1
  have hlt := ht.lt e he k
  have hn : k - kHeaderBytes + 9 < (encodeEntry e).length := by
    simp only [kHeaderBytes] at hk ⊢
    omega
  have hcould := couldBeCutShort_seenBehind e he (k - kHeaderBytes) hn
  rw [Nat.sub_add_cancel hk] at hcould
  rw [look_cut_payload e he k hk, seenBehind_length e _ hn, if_pos hn, if_pos (hcould.mpr ht)]

theorem look_not_torn (k : Nat) (hpos : 0 < k)
    (ht : ¬ ReadsAsTorn e k) :
    look ((entryRecord e).take k ++ terminatorRecord) = .stop .kCorrupt ∨
      ∃ e' rest, look ((entryRecord e).take k ++ terminatorRecord) = .record e' rest := by
  by_cases hk : k < kHeaderBytes
  · exact Or.inl (look_cut_header e he k hpos hk)
  · have hk8 : kHeaderBytes ≤ k := by omega
    obtain ⟨hlo, hhi⟩ := encodeEntry_length_lt e he
    rw [look_cut_payload e he k hk8]
    by_cases hn : k - kHeaderBytes + 9 < (encodeEntry e).length
    · have hcould := couldBeCutShort_seenBehind e he (k - kHeaderBytes) hn
      rw [Nat.sub_add_cancel hk8] at hcould
      rw [seenBehind_length e _ hn, if_pos hn, if_neg (mt hcould.mp ht)]
      exact Or.inl rfl
    · have hfull : ¬ (seenBehind e (k - kHeaderBytes)).length < (encodeEntry e).length := by
        rw [seenBehind, length_append, length_take, terminatorRecord_length]
        omega
      have hfirst : ((seenBehind e (k - kHeaderBytes)).take (encodeEntry e).length).getD 0 0 =
          kEntry := by
        have hin : 0 < ((encodeEntry e).take (k - kHeaderBytes)).length := by
          rw [length_take]
          omega
        rw [getD_take _ _ 0 (by omega), seenBehind, getD_append _ _ _ _ hin,
          getD_take _ _ 0 (by omega)]
        rfl
      rw [if_neg hfull]
      split
      · exact Or.inl rfl
      · rcases lookPayload_entry _ ((seenBehind e (k - kHeaderBytes)).drop (encodeEntry e).length)
          hfirst with ⟨-, hlook⟩ | ⟨e', -, hlook⟩
        · exact Or.inl hlook
        · exact Or.inr ⟨e', _, hlook⟩

end

theorem scan_more (es : List Entry) (tail rest : List UInt8) (e : Entry)
    (hes : ∀ e ∈ es, Writable e) (ht : look tail = .record e rest) :
    (scan (es.flatMap entryRecord ++ tail)).entries ≠ es := by
  have htail : tail ≠ [] := by
    intro h
    rw [h] at ht
    cases ht
  have hne : es.flatMap entryRecord ++ tail ≠ [] := by simp [htail]
  have hle := length_le_flatMap (f := entryRecord) (fun e => frame_ne_nil (encodeEntry e)) es
  obtain ⟨fuel, hfuel⟩ : ∃ fuel, (es.flatMap entryRecord ++ tail).length + 1 =
      es.length + (fuel + 1) := by
    refine ⟨(es.flatMap entryRecord ++ tail).length - es.length, ?_⟩
    rw [length_append]
    omega
  have hmore : (scan (es.flatMap entryRecord ++ tail)).entries =
      es ++ e :: (scanWith look .kCorrupt fuel rest).records := by
    rw [scan, if_neg hne, hfuel]
    simp only
    rw [scanWith_flatMap es tail (fuel + 1) fun e he rest => look_entryRecord e rest (hes e he),
      scanWith_record fuel tail rest e ht]
  intro h
  have hlen := congrArg length (hmore.symm.trans h)
  simp only [length_append, length_cons] at hlen
  omega

end LoadForge.Journal
