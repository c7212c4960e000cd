import LoadForge.Controller.Account

namespace LoadForge.Controller

open Framework Verification Worker Tracked

/-- An event that delivers a tally on a channel the controller still reads. -/
def Delivers (w : Tracked) (e : WorkerEvent) (now : Tally) : Prop :=
  w.channelOpen = true ∧
    ∃ r, e = .frame r ∧ r.type = kTallyFrameType ∧ decodeTally r.payload = .ok now

/-- A tally in which some counter is below the last one accepted. -/
def WentBackwards (w : Tracked) (now : Tally) : Prop :=
  w.tallySeen = true ∧ ∃ c : Counter, now.get c < w.tally.get c

def ComparedBackwards (w : Tracked) (now : Tally) : Prop :=
  now.unitsComputed < w.tally.unitsComputed ∨ now.oracleBlocks < w.tally.oracleBlocks ∨
    now.integrityChecked < w.tally.integrityChecked

/-- The tally kept never shrinks in this step, and one that went backwards is refused. -/
def TallyGrows (shortest : UInt64 → String) (w : Tracked) (e : WorkerEvent) : Prop :=
  (∀ c : Counter, w.tally.get c ≤ (w.after shortest e).tally.get c) ∧
    ∀ now, Delivers w e now → WentBackwards w now →
      (∃ r, e = .frame r ∧ ingest shortest w r = .error "a tally that went backwards") ∧
        (w.after shortest e).tally = w.tally

/-- A delivered tally that went backwards did so in a counter that is compared. -/
def BackwardsCompared (w : Tracked) (e : WorkerEvent) : Prop :=
  ∀ now, Delivers w e now → WentBackwards w now → ComparedBackwards w now

def TallyStarted (w : Tracked) : Prop := w.tallySeen = false → w.tally = {}

variable (shortest : UInt64 → String) (w : Tracked)

theorem ingest_tally (r : Record) (hr : r.type = kTallyFrameType) :
    ingest shortest w r = takeTally w r := by
  have hne : kTallyFrameType ≠ kErrorRecordFrameType := by decide
  unfold ingest
  rw [hr, if_neg hne, if_pos rfl]

theorem takeTally_backwards (r : Record) (now : Tally) (hd : decodeTally r.payload = .ok now)
    (hs : w.tallySeen = true)
    (hc : ComparedBackwards w now) : takeTally w r = .error "a tally that went backwards" := by
  unfold takeTally
  rw [hd]
  exact if_pos ⟨hs, hc⟩

theorem takeTally_forwards (r : Record) (now : Tally) (hd : decodeTally r.payload = .ok now)
    (hc : ¬(w.tallySeen = true ∧ ComparedBackwards w now)) :
    takeTally w r = .ok { w with tally := now, tallySeen := true } := by
  unfold takeTally
  rw [hd]
  exact if_neg hc

/-- The tally changes only by a delivered one, and only one no compared counter of which is
below the last. -/
theorem after_tally (e : WorkerEvent) :
    ((w.after shortest e).tally = w.tally ∧ (w.after shortest e).tallySeen = w.tallySeen) ∨
      ∃ now, Delivers w e now ∧ ¬(w.tallySeen = true ∧ ComparedBackwards w now) ∧
        (w.after shortest e).tally = now ∧ (w.after shortest e).tallySeen = true := by
  rcases after_cases shortest w e with hsame | ⟨r, rfl, ho, ⟨-, ht⟩ | ⟨hr, ht⟩⟩
  · exact .inl ⟨hsame.tally, hsame.tallySeen⟩
  · obtain ⟨found, -, -, -, htally, hseen, -⟩ := takeErrorRecord_ok shortest w _ r ht
    exact .inl ⟨htally, hseen⟩
  · obtain ⟨now, hd, hnow, hc⟩ := takeTally_ok w _ r ht
    rw [hnow]
    exact .inr ⟨now, ⟨ho, r, rfl, hr, hd⟩, hc, rfl, rfl⟩

theorem after_tallyStarted (e : WorkerEvent) (hw : TallyStarted w) :
    TallyStarted (w.after shortest e) := by
  intro hunseen
  rcases after_tally shortest w e with ⟨htally, hseen⟩ | ⟨now, -, -, -, hseen⟩
  · rw [htally]
    exact hw (hseen ▸ hunseen)
  · rw [hseen] at hunseen
    cases hunseen

theorem after_delivered (e : WorkerEvent) (now : Tally) (hd : Delivers w e now)
    (hc : ¬(w.tallySeen = true ∧ ComparedBackwards w now)) :
    (w.after shortest e).tally = now := by
  obtain ⟨ho, r, rfl, hr, hdecode⟩ := hd
  have hi := ingest_tally shortest w r hr
  rw [takeTally_forwards w r now hdecode hc] at hi
  simp only [after, whenOpen, ho, if_true, takeFrame, hi]

theorem after_backwards (e : WorkerEvent) (now : Tally) (hd : Delivers w e now)
    (hs : w.tallySeen = true) (hc : ComparedBackwards w now) :
    (∃ r, e = .frame r ∧ ingest shortest w r = .error "a tally that went backwards") ∧
      (w.after shortest e).tally = w.tally := by
  obtain ⟨ho, r, rfl, hr, hdecode⟩ := hd
  have hi := ingest_tally shortest w r hr
  rw [takeTally_backwards w r now hdecode hs hc] at hi
  refine ⟨⟨r, rfl, hi⟩, ?_⟩
  simp only [after, whenOpen, ho, if_true, takeFrame, hi]
  rfl

private theorem zero_le_get (now : Tally) (hw : TallyStarted w) (hs : ¬w.tallySeen = true)
    (c : Counter) : w.tally.get c ≤ now.get c := by
  have hempty : w.tally = {} := hw (by simpa using hs)
  rw [hempty]
  cases c <;> exact UInt64.zero_le

theorem tallyGrows_iff (e : WorkerEvent) (hw : TallyStarted w) :
    TallyGrows shortest w e ↔ BackwardsCompared w e := by
  constructor
  · rintro ⟨hgrows, -⟩ now hd ⟨hs, c, hlt⟩
    by_contra hc
    have hkept : (w.after shortest e).tally = now :=
      after_delivered shortest w e now hd fun h => hc h.2
    have hle := hgrows c
    rw [hkept] at hle
    exact absurd hlt (UInt64.not_lt.mpr hle)
  · intro hcompared
    refine ⟨fun c => ?_, fun now hd hback =>
      after_backwards shortest w e now hd hback.1 (hcompared now hd hback)⟩
    rcases after_tally shortest w e with ⟨htally, -⟩ | ⟨now, hd, hc, htally, -⟩
    · rw [htally]
      exact UInt64.le_refl _
    · rw [htally]
      by_cases hs : w.tallySeen = true
      · by_contra hlt
        have hback : WentBackwards w now := ⟨hs, c, UInt64.not_le.mp hlt⟩
        exact hc ⟨hs, hcompared now hd hback⟩
      · exact zero_le_get w now hw hs c

/-- The tally only grows exactly when those that went backwards did so in a counter that is
compared. -/
theorem tally_only_grows_iff (shortest : UInt64 → String) (slot : Nat) (plan : WorkerPlan)
    (es : List WorkerEvent) :
    Along (Tracked.after shortest) (TallyGrows shortest) (.launch slot plan) es ↔
      Along (Tracked.after shortest) BackwardsCompared (.launch slot plan) es :=
  along_congr TallyStarted (fun w e hw _ => after_tallyStarted shortest w e hw)
    (fun w e hw => tallyGrows_iff shortest w e hw) _ es fun _ => rfl

theorem tally_forgets_failures :
    let first : Record := ⟨kTallyFrameType, encodeTally { unitsComputed := 1, oracleFailed := 5 }⟩
    let second : Record := ⟨kTallyFrameType, encodeTally { unitsComputed := 1 }⟩
    let w := after (fun _ => "") (.launch 0 soloPlan) (.frame first)
    w.tally.oracleFailed = 5 ∧
      (w.after (fun _ => "") (.frame second)).tally.oracleFailed = 0 ∧
      (w.after (fun _ => "") (.frame second)).channelOpen = true ∧
      ¬Along (after fun _ => "") (TallyGrows fun _ => "") (.launch 0 soloPlan)
        [.frame first, .frame second] := by
  refine ⟨by decide, by decide, by decide, ?_⟩
  rintro ⟨-, ⟨hgrows, -⟩, -⟩
  exact absurd (hgrows .oracleFailed) (by decide)

end LoadForge.Controller
