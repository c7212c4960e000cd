import LoadForge.Journal.TornTail

namespace LoadForge.Journal

open Framework RunJournal

/-- The entries that were appended, and an ending that does not accuse the storage. -/
def Honest (es : List Entry) (bytes : List UInt8) : Prop :=
  (scan bytes).entries = es ∧
    (scan bytes).ending ∈ [.kUnterminated, .kTornTail, .kTerminated]

/-- A write whose append fails leaves nothing of its record, or a tear that reads as one. -/
def TearsAsTorn (intervalNs : Int) (j : RunJournal) (w : Write) : Prop :=
  writes intervalNs j w = true → ∀ written detail, w.stored = .failed written detail →
    w.entry.phase.length ≤ kMaxLabelBytes → w.entry.workload.length ≤ kMaxLabelBytes →
      written = 0 ∨ ReadsAsTorn w.entry written

theorem honest_records (es : List Entry) (hes : ∀ e ∈ es, Writable e) :
    Honest es (es.flatMap entryRecord ++ terminatorRecord) := by
  rw [Honest, scan_terminated es hes]
  simp

/-- Whole records, a torn one and the terminator are read as they should be exactly when the tear
reads as one. -/
theorem honest_torn_iff (es : List Entry) (hes : ∀ e ∈ es, Writable e) (e : Entry)
    (he : Writable e) (written : Nat) :
    Honest es (es.flatMap entryRecord ++ (entryRecord e).take written ++ terminatorRecord) ↔
      written = 0 ∨ ReadsAsTorn e written := by
  rcases Nat.eq_zero_or_pos written with rfl | hpos
  · simp [honest_records es hes]
  · have hzero : written ≠ 0 := by omega
    have hne : es.flatMap entryRecord ++ ((entryRecord e).take written ++ terminatorRecord) ≠ [] := by
      simp [terminatorRecord, frame_ne_nil]
    rw [List.append_assoc]
    by_cases ht : ReadsAsTorn e written
    · have hscan := scan_records es _ .kTornTail hes hne (look_torn e he written ht)
      rw [Honest, hscan]
      simp [ht]
    · simp only [hzero, ht, or_self, iff_false]
      intro hhonest
      rcases look_not_torn e he written hpos ht with hcorrupt | ⟨e', rest, hrecord⟩
      · have hscan := scan_records es _ .kCorrupt hes hne hcorrupt
        have hending := hhonest.2
        rw [hscan] at hending
        simp at hending
      · exact scan_more es _ rest e' hes hrecord hhonest.1

theorem writeJournal_cases (intervalNs : Int) (j : RunJournal) (w : Write)
    (hc : j.writer.closed = false) :
    (writes intervalNs j w = false ∧ appends intervalNs j w = false ∧
        writeJournal intervalNs j w = j) ∨
      (writes intervalNs j w = true ∧ w.stored = .ok ∧ Writable w.entry ∧
        appends intervalNs j w = true ∧
        (writeJournal intervalNs j w).writer = ⟨j.writer.bytes ++ entryRecord w.entry, false⟩) ∨
      (writes intervalNs j w = true ∧ (∃ written detail, w.stored = .failed written detail ∧
        Writable w.entry ∧ (writeJournal intervalNs j w).writer =
          ⟨j.writer.bytes ++ (entryRecord w.entry).take written, false⟩) ∧
        appends intervalNs j w = false ∧ (writeJournal intervalNs j w).live = false) ∨
      ((kMaxLabelBytes < w.entry.phase.length ∨ kMaxLabelBytes < w.entry.workload.length) ∧
        appends intervalNs j w = false ∧ (writeJournal intervalNs j w).live = false ∧
        (writeJournal intervalNs j w).writer = j.writer) := by
  cases hw : writes intervalNs j w with
  | false => exact .inl (by simp [appends, writeJournal, hw])
  | true =>
    rcases j.writer.append_cases w.entry w.stored hc with
      ⟨hok, hp, hl, happ⟩ | ⟨written, detail, hfail, hp, hl, happ⟩ | ⟨hlong, happ⟩
    · refine .inr (.inl ⟨rfl, hok, ⟨w.elapsed, hp, hl⟩, ?_, ?_⟩)
      · simp [appends, hw, happ, Except.toOption]
      · rw [writeJournal, if_pos hw, happ]
        simp only
        split <;> rfl
    · refine .inr (.inr (.inl ⟨rfl, ⟨written, detail, hfail, ⟨w.elapsed, hp, hl⟩, ?_⟩, ?_, ?_⟩))
      · rw [writeJournal, if_pos hw, happ]
        rfl
      · simp [appends, hw, happ, Except.toOption]
      · rw [writeJournal, if_pos hw, happ]
        rfl
    · refine .inr (.inr (.inr ⟨hlong, ?_, ?_, ?_⟩))
      · simp [appends, hw, happ, Except.toOption]
      · rw [writeJournal, if_pos hw, happ]
        rfl
      · rw [writeJournal, if_pos hw, happ]
        rfl

theorem run_dead (intervalNs : Int) (j : RunJournal) (ws : List Write) (hl : j.live = false) :
    run (writeJournal intervalNs) j ws = j ∧ appended intervalNs j ws = [] ∧
      Along (writeJournal intervalNs) (TearsAsTorn intervalNs) j ws := by
  induction ws with
  | nil => exact ⟨rfl, rfl, trivial⟩
  | cons w ws ih =>
    have hw : writes intervalNs j w = false := by simp [writes, hl]
    have hstep : writeJournal intervalNs j w = j := by simp [writeJournal, hw]
    have hap : appends intervalNs j w = false := by simp [appends, hw]
    refine ⟨?_, ?_, ?_, ?_⟩
    · rw [run_cons, hstep]
      exact ih.1
    · rw [appended, hstep, hap, ih.2.1]
      rfl
    · intro h
      rw [hw] at h
      cases h
    · rw [hstep]
      exact ih.2.2

/-- A run is read as it should be exactly when each append that fails tears as one. -/
theorem honest_run_iff (intervalNs : Int) (j : RunJournal) (ws : List Write) (es : List Entry)
    (hc : j.writer.closed = false) (hes : ∀ e ∈ es, Writable e)
    (hb : j.writer.bytes = es.flatMap entryRecord) :
    Honest (es ++ appended intervalNs j ws)
        ((run (writeJournal intervalNs) j ws).writer.bytes ++ terminatorRecord) ↔
      Along (writeJournal intervalNs) (TearsAsTorn intervalNs) j ws := by
  induction ws generalizing j es with
  | nil =>
    simp only [run_nil, appended, List.append_nil, hb, Along, iff_true]
    exact honest_records es hes
  | cons w ws ih =>
    simp only [run_cons, appended, Along]
    rcases writeJournal_cases intervalNs j w hc with ⟨hw, hap, hstep⟩ | ⟨hw, hok, he, hap, hwriter⟩ |
        ⟨hw, ⟨written, detail, hfail, he, hwriter⟩, hap, hdead⟩ | ⟨hlong, hap, hdead, hwriter⟩
    · have hcond : TearsAsTorn intervalNs j w := fun h => by simp [hw] at h
      rw [hap, hstep]
      simpa [hcond] using ih j es hc hes hb
    · have hcond : TearsAsTorn intervalNs j w := fun _ written detail h => by simp [hok] at h
      have hnext := ih (writeJournal intervalNs j w) (es ++ [w.entry]) (by rw [hwriter]) (by
          intro e hmem
          rcases List.mem_append.mp hmem with hold | hnew
          · exact hes e hold
          · rw [List.mem_singleton.mp hnew]
            exact he)
        (by rw [hwriter, hb]; simp)
      rw [hap]
      simpa [hcond] using hnext
    · obtain ⟨hrun, hnone, halong⟩ := run_dead intervalNs _ ws hdead
      have hcond : TearsAsTorn intervalNs j w ↔ written = 0 ∨ ReadsAsTorn w.entry written := by
        constructor
        · exact fun h => h hw written detail hfail he.phase he.workload
        · intro h _ written' detail' hfail' _ _
          rw [hfail] at hfail'
          cases hfail'
          exact h
      rw [hap, hrun, hnone, hwriter, hb, hcond]
      simpa [halong] using honest_torn_iff es hes w.entry he written
    · obtain ⟨hrun, hnone, halong⟩ := run_dead intervalNs _ ws hdead
      have hcond : TearsAsTorn intervalNs j w := by
        intro _ written detail _ hp hl
        omega
      rw [hap, hrun, hnone, hwriter, hb]
      simpa [halong, hcond] using honest_records es hes

/-- The journal a run leaves replays as it should exactly when each failed append left nothing or
a tear that reads as one. -/
theorem failed_append_replays_iff (intervalNs : Int) (ws : List Write) (synced : Synced) :
    Honest (appended intervalNs (start ⟨[], false⟩) ws)
        (endJournal (run (writeJournal intervalNs) (start ⟨[], false⟩) ws) .ok synced).2.bytes ↔
      Along (writeJournal intervalNs) (TearsAsTorn intervalNs) (start ⟨[], false⟩) ws := by
  have hopen : (run (writeJournal intervalNs) (start ⟨[], false⟩) ws).writer.closed = false := by
    apply run_inv (fun j : RunJournal => j.writer.closed = false)
    · intro j w hc
      rcases writeJournal_cases intervalNs j w hc with ⟨-, -, hstep⟩ | ⟨-, -, -, -, hwriter⟩ |
        ⟨-, ⟨_, _, -, -, hwriter⟩, -, -⟩ | ⟨-, -, -, hwriter⟩
      · rw [hstep]
        exact hc
      · rw [hwriter]
      · rw [hwriter]
      · rw [hwriter]
        exact hc
    · rfl
  have hend : ∀ j : RunJournal, j.writer.closed = false →
      (endJournal j .ok synced).2.bytes = j.writer.bytes ++ terminatorRecord := by
    intro j hc
    rw [endJournal, j.writer.close_ok synced hc]
    cases synced <;> rfl
  rw [hend _ hopen]
  exact honest_run_iff intervalNs (start ⟨[], false⟩) ws [] rfl (by simp) rfl

/-- One write whose storage fails after the first byte of the record. -/
def tornWrite : Write :=
  ⟨warmEntry, by decide, true, .failed 1 "write: No space left on device", none⟩

theorem torn_first_byte_reads_corrupt :
    appended 0 (start ⟨[], false⟩) [tornWrite] = [] ∧
      scan (endJournal (run (writeJournal 0) (start ⟨[], false⟩) [tornWrite]) .ok none).2.bytes =
        ⟨[], .kCorrupt⟩ := by
  decide +kernel

end LoadForge.Journal
