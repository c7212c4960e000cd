import LoadForge.Worker.Heartbeat

namespace LoadForge.Ipc

open Framework List Function

def SameBefore : Field → Heartbeat → Heartbeat → Prop
  | .timestampNs, _, _ => True
  | .progress, a, b => a.timestampNs = b.timestampNs
  | .phase, a, b => a.timestampNs = b.timestampNs ∧ a.progress = b.progress
  | .pid, a, b => a.timestampNs = b.timestampNs ∧ a.progress = b.progress ∧ a.phase = b.phase

theorem copy_sameBefore (field : Field) (a b : Heartbeat) (h : SameBefore field a b) :
    (∀ next, field.next = some next → SameBefore next (b.copy field a) b) ∧
      (field.next = none → b.copy field a = b) := by
  cases field with
  | pid =>
    refine ⟨nofun, ?_⟩
    intro _
    obtain ⟨htimestamp, hprogress, hphase⟩ := h
    cases a
    cases b
    simp only at htimestamp hprogress hphase
    rw [htimestamp, hprogress, hphase]
    rfl
  | _ =>
    refine ⟨?_, nofun⟩
    intro next hnext
    cases hnext
    simp_all [SameBefore, Heartbeat.copy]

/-- No write is in progress: the slot holds the last beat that was published. -/
structure Slot.AtRest (s : Slot) : Prop where
  sequence : s.cell.sequence.toNat = 2 * s.published.length
  beat : ∀ beat, s.published.getLast? = some beat → s.cell.beat = beat

structure Slot.Writing (s : Slot) (writing : UInt64) : Prop where
  sequence : s.cell.sequence = writing
  count : writing.toNat = 2 * s.published.length + 1

theorem Slot.Writing.odd {s : Slot} {writing : UInt64} (h : s.Writing writing) :
    s.cell.sequence.toNat % 2 = 1 := by
  rw [h.sequence, h.count]
  omega

def Slot.Kept (s : Slot) : Prop :=
  match s.publisher with
  | .opens _ writing => s.AtRest ∧ writing.toNat = 2 * s.published.length + 1
  | .stores beat writing field => s.Writing writing ∧ SameBefore field s.cell.beat beat
  | .closes beat writing => s.Writing writing ∧ s.cell.beat = beat
  | _ => s.AtRest

def Slot.calls (s : Slot) : Nat := s.published.length + if s.publisher.busy then 1 else 0

/-- What can become of a cell: nothing, a later sequence, or other words under an odd one. -/
def Cell.Later (cell later : Cell) : Prop :=
  later = cell ∨ cell.sequence.toNat < later.sequence.toNat ∨
    cell.sequence.toNat % 2 = 1 ∧ later.sequence = cell.sequence

theorem atRest_of_idle {s : Slot} (h : s.Kept) (hb : s.publisher.busy = false) : s.AtRest := by
  obtain ⟨cell, publisher, published⟩ := s
  cases publisher with
  | idle => exact h
  | returned answer => exact h
  | _ => cases hb

theorem publish_kept (s : Slot) (slot count : Nat) (beat : Heartbeat) (h : s.Kept) :
    (s.publish slot count beat).Kept ∧ (s.publish slot count beat).cell = s.cell ∧
      (s.publish slot count beat).published = s.published ∧
      (s.publish slot count beat).calls ≤ s.calls + 1 := by
  rw [Slot.publish]
  split_ifs with hbusy hrange
  · exact ⟨h, rfl, rfl, Nat.le_succ _⟩
  · have hrest := atRest_of_idle h (Bool.not_eq_true _ ▸ hbusy)
    exact ⟨⟨hrest.sequence, hrest.beat⟩, rfl, rfl, Nat.le_trans (Nat.le_add_right _ _) (Nat.le_succ _)⟩
  · have hrest := atRest_of_idle h (Bool.not_eq_true _ ▸ hbusy)
    refine ⟨⟨hrest.sequence, hrest.beat⟩, rfl, rfl, ?_⟩
    show s.published.length + 1 ≤ s.published.length + _ + 1
    omega

theorem publisherStep_kept (s : Slot) (h : s.Kept) (hc : s.calls < 2 ^ 63) :
    s.publisherStep.Kept ∧ s.publisherStep.calls = s.calls ∧
      s.cell.Later s.publisherStep.cell ∧ s.published <+: s.publisherStep.published := by
  obtain ⟨cell, publisher, published⟩ := s
  have hroom (hbusy : publisher.busy = true) : published.length + 1 < 2 ^ 63 := by
    simp only [Slot.calls, hbusy, if_true] at hc
    exact hc
  cases publisher with
  | idle => exact ⟨h, rfl, .inl rfl, prefix_rfl⟩
  | returned answer => exact ⟨h, rfl, .inl rfl, prefix_rfl⟩
  | loads beat =>
    have hrest : Slot.AtRest ⟨cell, .loads beat, published⟩ := h
    have hsequence : cell.sequence.toNat = 2 * published.length := hrest.sequence
    have hless := hroom rfl
    refine ⟨⟨⟨hsequence, hrest.beat⟩, ?_⟩, rfl, .inl rfl, prefix_rfl⟩
    show (cell.sequence + 1).toNat = 2 * published.length + 1
    rw [UInt64.toNat_add, hsequence]
    show (2 * published.length + 1) % 2 ^ 64 = _
    omega
  | opens beat writing =>
    obtain ⟨hrest, hwriting⟩ := h
    have hsequence : cell.sequence.toNat = 2 * published.length := hrest.sequence
    have hcount : writing.toNat = 2 * published.length + 1 := hwriting
    refine ⟨⟨⟨rfl, hwriting⟩, trivial⟩, rfl, .inr (.inl ?_), prefix_rfl⟩
    show cell.sequence.toNat < writing.toNat
    omega
  | stores beat writing field =>
    obtain ⟨hwriting, hsame⟩ := h
    obtain ⟨hmore, hlast⟩ := copy_sameBefore field cell.beat beat hsame
    have hodd := hwriting.odd
    cases hnext : field.next with
    | some next =>
      simp only [Slot.publisherStep, hnext]
      exact ⟨⟨⟨hwriting.sequence, hwriting.count⟩, hmore next hnext⟩, rfl,
        .inr (.inr ⟨hodd, rfl⟩), prefix_rfl⟩
    | none =>
      simp only [Slot.publisherStep, hnext]
      exact ⟨⟨⟨hwriting.sequence, hwriting.count⟩, hlast hnext⟩, rfl,
        .inr (.inr ⟨hodd, rfl⟩), prefix_rfl⟩
  | closes beat writing =>
    obtain ⟨hwriting, hbeat⟩ := h
    have hcount : writing.toNat = 2 * published.length + 1 := hwriting.count
    have hsequence : cell.sequence = writing := hwriting.sequence
    have hless := hroom rfl
    have hafter : (writing + 1).toNat = 2 * (published ++ [beat]).length := by
      rw [UInt64.toNat_add, hcount, length_append]
      show (2 * published.length + 1 + 1) % 2 ^ 64 = 2 * (published.length + 1)
      omega
    refine ⟨⟨hafter, ?_⟩, ?_, .inr (.inl ?_), prefix_append _ _⟩
    · intro last hlast
      simp only [Slot.publisherStep, getLast?_concat] at hlast
      cases hlast
      exact hbeat
    · simp [Slot.publisherStep, Slot.calls, Publishing.busy]
    · show cell.sequence.toNat < (writing + 1).toNat
      rw [hafter, hsequence, hcount, length_append, length_singleton]
      omega

/-- The sequence is even only while no write is in progress. -/
theorem atRest_of_even {s : Slot} (h : s.Kept) (he : s.cell.sequence.toNat % 2 = 0) : s.AtRest := by
  have hwriting : ∀ writing, ¬s.Writing writing := by
    intro writing hw
    have hodd := hw.odd
    omega
  obtain ⟨cell, publisher, published⟩ := s
  cases publisher with
  | opens beat writing => exact h.1
  | stores beat writing field => exact absurd h.1 (hwriting writing)
  | closes beat writing => exact absurd h.1 (hwriting writing)
  | _ => exact h

/-- Only an even sequence that is still there vouches for the words. -/
structure Sampled (attempts : Nat) (before : UInt64) (cell : Cell) (same : Prop) : Prop where
  attempts : attempts < kMaxTornRetries
  nonzero : before ≠ 0
  early : before.toNat ≤ cell.sequence.toNat
  same : before = cell.sequence → before.toNat % 2 = 0 → same

theorem Sampled.later {attempts : Nat} {before : UInt64} {cell later : Cell} {same still : Prop}
    (h : Sampled attempts before cell same) (hl : cell.Later later)
    (hsame : later = cell → same → still) : Sampled attempts before later still := by
  have hearly := h.early
  rcases hl with heq | hlt | ⟨hodd, heq⟩
  · refine ⟨h.attempts, h.nonzero, heq ▸ hearly, ?_⟩
    intro hbefore heven
    exact hsame heq (h.same (heq ▸ hbefore) heven)
  · refine ⟨h.attempts, h.nonzero, by omega, ?_⟩
    intro hbefore heven
    rw [hbefore] at hearly
    omega
  · refine ⟨h.attempts, h.nonzero, heq ▸ hearly, ?_⟩
    intro hbefore heven
    rw [hbefore, heq] at heven
    omega

def Observing.Kept (doing : Observing) (cell : Cell) : Prop :=
  match doing with
  | .idle => False
  | .begins attempts => attempts < kMaxTornRetries
  | .reads attempts before field beat =>
    Sampled attempts before cell (SameBefore field beat cell.beat)
  | .checks attempts before beat => Sampled attempts before cell (beat = cell.beat)
  | .answered _ => True

theorem Observing.Kept.later {doing : Observing} {cell later : Cell} (h : doing.Kept cell)
    (hl : cell.Later later) : doing.Kept later := by
  cases doing with
  | idle => exact h
  | begins attempts => exact h
  | reads attempts before field beat => exact Sampled.later h hl fun heq hsame => heq ▸ hsame
  | checks attempts before beat => exact Sampled.later h hl fun heq hsame => heq ▸ hsame
  | answered answer => trivial

/-- An observer that makes no more loads stays as it is. -/
theorem step_of_not_busy {doing : Observing} (hb : doing.busy = false) (cell : Cell) :
    doing.step cell = doing ∧ (doing = .idle ∨ ∃ answer, doing = .answered answer) := by
  cases doing with
  | idle => exact ⟨rfl, .inl rfl⟩
  | answered answer => exact ⟨rfl, .inr ⟨answer, rfl⟩⟩
  | _ => cases hb

theorem retry_kept (attempts : Nat) (cell : Cell) : (retry attempts).Kept cell := by
  rw [retry]
  split_ifs with hmore
  · exact hmore
  · trivial

theorem observerStep_kept (doing : Observing) (cell : Cell) (h : doing.Kept cell) :
    (doing.step cell).Kept cell := by
  cases doing with
  | idle => exact h
  | answered answer => trivial
  | begins attempts =>
    rw [Observing.step]
    split_ifs with hzero
    · trivial
    · exact ⟨h, hzero, Nat.le_refl _, fun _ _ => trivial⟩
  | reads attempts before field beat =>
    obtain ⟨hattempts, hnonzero, hearly, hsame⟩ := h
    cases hnext : field.next with
    | some next =>
      simp only [Observing.step, hnext]
      refine ⟨hattempts, hnonzero, hearly, ?_⟩
      intro hbefore heven
      exact (copy_sameBefore field beat cell.beat (hsame hbefore heven)).1 next hnext
    | none =>
      simp only [Observing.step, hnext]
      refine ⟨hattempts, hnonzero, hearly, ?_⟩
      intro hbefore heven
      exact (copy_sameBefore field beat cell.beat (hsame hbefore heven)).2 hnext
  | checks attempts before beat =>
    rw [Observing.step]
    split_ifs with hsample
    · trivial
    · exact retry_kept attempts cell

theorem sampleIsConsistent_iff (before after : UInt64) :
    sampleIsConsistent before after = true ↔ before.toNat % 2 = 0 ∧ before = after := by
  have hparity : (before &&& 1 == 0) = true ↔ before.toNat % 2 = 0 := by
    rw [beq_iff_eq, ← UInt64.toNat_inj, UInt64.toNat_and]
    show before.toNat &&& 1 = 0 ↔ _
    rw [Nat.and_one_is_mod]
  rw [sampleIsConsistent, Bool.and_eq_true, hparity, beq_iff_eq]

theorem observerStep_answer (doing : Observing) (cell : Cell) (h : doing.Kept cell)
    (hb : doing.busy = true) (answer : Except RegionError (Option Heartbeat))
    (ha : doing.step cell = .answered answer) :
    cell.sequence = 0 ∧ answer = .ok none ∨
      cell.sequence ≠ 0 ∧ cell.sequence.toNat % 2 = 0 ∧ answer = .ok (some cell.beat) ∨
      answer = .error (tornSlot kMaxTornRetries) := by
  cases doing with
  | idle => cases hb
  | answered answer => cases hb
  | begins attempts =>
    rw [Observing.step] at ha
    split_ifs at ha with hzero
    cases ha
    exact .inl ⟨hzero, rfl⟩
  | reads attempts before field beat =>
    cases hnext : field.next with
    | some next => simp only [Observing.step, hnext] at ha; cases ha
    | none => simp only [Observing.step, hnext] at ha; cases ha
  | checks attempts before beat =>
    obtain ⟨hattempts, hnonzero, hearly, hsame⟩ := h
    rw [Observing.step] at ha
    split_ifs at ha with hsample
    · obtain ⟨heven, hbefore⟩ := (sampleIsConsistent_iff _ _).mp hsample
      cases ha
      rw [hsame hbefore heven]
      rw [hbefore] at hnonzero heven
      exact .inr (.inl ⟨hnonzero, heven, rfl⟩)
    · rw [retry] at ha
      split_ifs at ha with hmore
      have hall : attempts + 1 = kMaxTornRetries := by omega
      cases ha
      rw [hall]
      exact .inr (.inr rfl)

/-- The loads an observer may still make: six in an attempt. -/
def Observing.loads : Observing → Nat
  | .idle | .answered _ => 0
  | .begins attempts => 6 * (kMaxTornRetries - attempts)
  | .reads attempts _ field _ =>
    6 * (kMaxTornRetries - attempts - 1) + match field with
      | .timestampNs => 5
      | .progress => 4
      | .phase => 3
      | .pid => 2
  | .checks attempts _ _ => 6 * (kMaxTornRetries - attempts - 1) + 1

theorem observerStep_loads (doing : Observing) (cell : Cell) (h : doing.Kept cell)
    (hb : doing.busy = true) : (doing.step cell).loads < doing.loads := by
  cases doing with
  | idle => cases hb
  | answered answer => cases hb
  | begins attempts =>
    have hattempts : attempts < kMaxTornRetries := h
    rw [Observing.step]
    split_ifs with hzero
    · simp only [Observing.loads]
      omega
    · simp only [Observing.loads]
      omega
  | reads attempts before field beat =>
    cases field with
    | _ =>
      simp only [Observing.step, Field.next, Observing.loads]
      omega
  | checks attempts before beat =>
    rw [Observing.step]
    split_ifs with hsample
    · simp only [Observing.loads]
      omega
    · rw [retry]
      split_ifs with hmore
      · simp only [Observing.loads]
        omega
      · simp only [Observing.loads]
        omega

@[simp] theorem setSlot_same (r : Region) (slot : Nat) (s : Slot) :
    (r.setSlot slot s).slots slot = s := update_self ..

@[simp] theorem setSlot_ne (r : Region) {slot other : Nat} (s : Slot) (h : slot ≠ other) :
    (r.setSlot other s).slots slot = r.slots slot := update_of_ne h ..

@[simp] theorem setObserver_same (r : Region) (observer : Nat) (o : Observer) :
    (r.setObserver observer o).observers observer = o := update_self ..

@[simp] theorem setObserver_ne (r : Region) {observer other : Nat} (o : Observer)
    (h : observer ≠ other) :
    (r.setObserver other o).observers observer = r.observers observer := update_of_ne h ..

@[simp] theorem setObserver_slots (r : Region) (observer : Nat) (o : Observer) :
    (r.setObserver observer o).slots = r.slots := rfl

def RegionEvent.publishes (slot : Nat) : RegionEvent → Bool
  | .publish other _ => other == slot
  | _ => false

/-- The publishes of a slot that were begun and those still to begin cannot wrap its sequence. -/
def Region.Room (r : Region) (slot : Nat) (es : List RegionEvent) : Prop :=
  (r.slots slot).calls + es.countP (RegionEvent.publishes slot) < 2 ^ 63

variable (count : Nat)

theorem step_slot (r : Region) (e : RegionEvent) (es : List RegionEvent) (slot : Nat)
    (h : (r.slots slot).Kept) (hr : r.Room slot (e :: es)) :
    ((r.step count e).slots slot).Kept ∧ (r.step count e).Room slot es ∧
      (r.slots slot).cell.Later ((r.step count e).slots slot).cell ∧
      (r.slots slot).published <+: ((r.step count e).slots slot).published := by
  rw [Region.Room, countP_cons] at hr
  have hsame : ∀ s, s = r.slots slot → s.Kept ∧
      s.calls + es.countP (RegionEvent.publishes slot) < 2 ^ 63 ∧ (r.slots slot).cell.Later s.cell ∧
      (r.slots slot).published <+: s.published := by
    intro s hs
    rw [hs]
    exact ⟨h, by omega, .inl rfl, prefix_rfl⟩
  cases e with
  | observe observer other => exact hsame _ rfl
  | observerStep observer => exact hsame _ rfl
  | publish other beat =>
    rw [Region.step, Region.Room]
    by_cases hother : slot = other
    · subst hother
      rw [setSlot_same]
      obtain ⟨hkept, hcell, hpublished, hcalls⟩ := publish_kept (r.slots slot) slot count beat h
      simp only [RegionEvent.publishes, beq_self_eq_true, if_true] at hr
      rw [hpublished]
      exact ⟨hkept, by omega, .inl hcell, prefix_rfl⟩
    · exact hsame _ (setSlot_ne r _ hother)
  | publisherStep other =>
    rw [Region.step, Region.Room]
    by_cases hother : slot = other
    · subst hother
      rw [setSlot_same]
      obtain ⟨hkept, hcalls, hlater, hpublished⟩ := publisherStep_kept (r.slots slot) h (by omega)
      exact ⟨hkept, by omega, hlater, hpublished⟩
    · exact hsame _ (setSlot_ne r _ hother)

/-- What holds of an observe of a slot from its call on, when so many beats were published before
it. -/
structure Region.Watched (r : Region) (slot observer before : Nat) : Prop where
  slotKept : (r.slots slot).Kept
  watches : (r.observers observer).slot = slot
  observing : (r.observers observer).doing.Kept (r.slots slot).cell
  since : before ≤ (r.slots slot).published.length
  whole : ∀ beat, (r.observers observer).doing = .answered (.ok (some beat)) →
    ∃ k, (r.slots slot).published[k]? = some beat ∧ before ≤ k + 1
  silent : (r.observers observer).doing = .answered (.ok none) → before = 0

variable {slot observer before : Nat}

theorem watched_of_later {r later : Region} (h : r.Watched slot observer before)
    (hk : (later.slots slot).Kept)
    (hl : (r.slots slot).cell.Later (later.slots slot).cell)
    (hp : (r.slots slot).published <+: (later.slots slot).published)
    (ho : later.observers observer = r.observers observer) :
    later.Watched slot observer before := by
  refine ⟨hk, ?_, ?_, Nat.le_trans h.since hp.length_le, ?_, ?_⟩
  · rw [ho]
    exact h.watches
  · rw [ho]
    exact h.observing.later hl
  · intro beat hanswer
    rw [ho] at hanswer
    obtain ⟨k, hk, hbefore⟩ := h.whole beat hanswer
    obtain ⟨more, hmore⟩ := hp
    refine ⟨k, ?_, hbefore⟩
    rw [← hmore, getElem?_append_left (List.getElem?_eq_some_iff.mp hk).1]
    exact hk
  · rw [ho]
    exact h.silent

theorem watched_observerStep {r : Region} (h : r.Watched slot observer before) (count : Nat) :
    (r.step count (.observerStep observer)).Watched slot observer before := by
  have hkept := h.slotKept
  have hsince := h.since
  have hobserving := h.observing
  rw [Region.step]
  simp only [h.watches]
  cases hb : (r.observers observer).doing.busy with
  | false =>
    rw [(step_of_not_busy hb _).1]
    have hobserver : (⟨slot, (r.observers observer).doing⟩ : Observer) = r.observers observer := by
      rw [← h.watches]
    rw [hobserver]
    exact watched_of_later h hkept (.inl rfl) prefix_rfl (setObserver_same ..)
  | true =>
    have hanswers := observerStep_answer _ _ hobserving hb
    refine ⟨hkept, by rw [setObserver_same], ?_, hsince, ?_, ?_⟩
    · rw [setObserver_same]
      exact observerStep_kept _ _ hobserving
    · intro beat hanswer
      rw [setObserver_same] at hanswer
      rcases hanswers _ hanswer with ⟨_, hok⟩ | ⟨hnonzero, heven, hok⟩ | herror
      · cases hok
      · have hrest := atRest_of_even hkept heven
        have hsequence := hrest.sequence
        have hlength : (r.slots slot).published.length ≠ 0 := by
          intro hnone
          rw [hnone] at hsequence
          exact hnonzero (UInt64.toNat_inj.mp hsequence)
        obtain ⟨last, hlast⟩ : ∃ last, (r.slots slot).published.getLast? = some last :=
          ⟨_, getLast?_eq_some_getLast (ne_nil_of_length_pos (by omega))⟩
        have hbeat := hrest.beat last hlast
        cases hok
        rw [getLast?_eq_getElem?] at hlast
        refine ⟨(r.slots slot).published.length - 1, ?_, by omega⟩
        rw [setObserver_slots, hlast, hbeat]
      · cases herror
    · intro hanswer
      rw [setObserver_same] at hanswer
      rcases hanswers _ hanswer with ⟨hzero, _⟩ | ⟨_, _, hok⟩ | herror
      · have hrest := atRest_of_even hkept (by rw [hzero]; rfl)
        have hsequence := hrest.sequence
        rw [hzero] at hsequence
        have hnone : 2 * (r.slots slot).published.length = 0 := hsequence.symm
        omega
      · cases hok
      · cases herror

variable {es : List RegionEvent}

theorem step_watched {r : Region} {e : RegionEvent} (h : r.Watched slot observer before)
    (hr : r.Room slot (e :: es)) (ho : ∀ other, e ≠ .observe observer other) :
    (r.step count e).Watched slot observer before := by
  obtain ⟨hkept, _, hlater, hpublished⟩ := step_slot count r e es slot h.slotKept hr
  cases e with
  | publish other beat => exact watched_of_later h hkept hlater hpublished rfl
  | publisherStep other => exact watched_of_later h hkept hlater hpublished rfl
  | observe other slot' =>
    have hother : observer ≠ other := by
      intro heq
      exact ho slot' (by rw [heq])
    exact watched_of_later h hkept hlater hpublished (setObserver_ne r _ hother)
  | observerStep other =>
    by_cases hother : observer = other
    · rw [← hother]
      exact watched_observerStep h count
    · exact watched_of_later h hkept hlater hpublished (setObserver_ne r _ hother)

/-- A region is zeroed when it is created. -/
def Region.after (count : Nat) (es : List RegionEvent) : Region := run (Region.step count) {} es

theorem after_append (es fs : List RegionEvent) :
    Region.after count (es ++ fs) = run (Region.step count) (Region.after count es) fs :=
  run_append ..

theorem after_kept (count slot : Nat) (es fs : List RegionEvent)
    (hc : (es ++ fs).countP (RegionEvent.publishes slot) < 2 ^ 63) :
    ((Region.after count es).slots slot).Kept ∧ (Region.after count es).Room slot fs := by
  have hinv := run_inv_ahead (Region.step count)
    (fun r es => (r.slots slot).Kept ∧ r.Room slot (es ++ fs))
    (fun r e es h => by
      obtain ⟨hkept, hroom, _⟩ := step_slot count r e (es ++ fs) slot h.1 h.2
      exact ⟨hkept, hroom⟩)
    {} es ⟨⟨rfl, fun _ hnone => (nomatch hnone)⟩, by rw [Region.Room]; exact (Nat.zero_add _).symm ▸ hc⟩
  exact hinv

theorem step_observe (count slot observer : Nat) (r : Region)
    (hb : (r.observers observer).doing.busy = false) :
    (r.step count (.observe observer slot)).observers observer =
      ⟨slot, if count ≤ slot then .answered (.error (slotOutOfRange slot count))
        else .begins 0⟩ := by
  rw [Region.step, setObserver_same, Observer.observe, hb, if_neg Bool.false_ne_true]
  split_ifs <;> rfl

theorem observe_watched (count slot observer : Nat) (r : Region) (hk : (r.slots slot).Kept)
    (hb : (r.observers observer).doing.busy = false) :
    (r.step count (.observe observer slot)).Watched slot observer
      (r.slots slot).published.length := by
  have hcall := step_observe count slot observer r hb
  refine ⟨hk, by rw [hcall], ?_, Nat.le_refl _, ?_, ?_⟩
  · rw [hcall]
    split_ifs with hrange
    · trivial
    · exact (by decide : 0 < kMaxTornRetries)
  · intro beat hanswer
    rw [hcall] at hanswer
    split_ifs at hanswer
    cases hanswer
  · intro hanswer
    rw [hcall] at hanswer
    split_ifs at hanswer
    cases hanswer

/-- A publisher that made the sequence odd and not yet even again. -/
def Publishing.midway : Publishing → Bool
  | .stores .. | .closes .. => true
  | _ => false

theorem odd_of_midway {s : Slot} (h : s.Kept) (hm : s.publisher.midway = true) :
    s.cell.sequence.toNat % 2 = 1 := by
  obtain ⟨cell, publisher, published⟩ := s
  cases publisher with
  | stores beat writing field => exact h.1.odd
  | closes beat writing => exact h.1.odd
  | _ => cases hm

theorem step_stopped (count slot : Nat) (r : Region) (e : RegionEvent)
    (hb : (r.slots slot).publisher.busy = true) (he : e ≠ .publisherStep slot) :
    (r.step count e).slots slot = r.slots slot := by
  cases e with
  | observe observer other => rfl
  | observerStep observer => rfl
  | publisherStep other =>
    refine setSlot_ne r _ ?_
    intro heq
    exact he (by rw [heq])
  | publish other beat =>
    rw [Region.step]
    by_cases hother : slot = other
    · subst hother
      rw [setSlot_same, Slot.publish, if_pos hb]
    · exact setSlot_ne r _ hother

theorem run_stopped (count slot : Nat) (r : Region) (es : List RegionEvent)
    (hb : (r.slots slot).publisher.busy = true) (he : RegionEvent.publisherStep slot ∉ es) :
    (run (Region.step count) r es).slots slot = r.slots slot := by
  induction es generalizing r with
  | nil => rfl
  | cons e es ih =>
    have hstep := step_stopped count slot r e hb fun heq => he (heq ▸ (by simp))
    rw [run_cons, ih (r.step count e) (hstep ▸ hb) fun hmem => he (by simp [hmem]), hstep]

theorem midway_busy {p : Publishing} (h : p.midway = true) : p.busy = true := by
  cases p with
  | stores beat writing field => rfl
  | closes beat writing => rfl
  | _ => cases h

theorem observerStep_odd (doing : Observing) (cell : Cell) (h : doing.Kept cell)
    (hodd : cell.sequence.toNat % 2 = 1)
    (ht : ∀ answer, doing = .answered answer → answer = .error (tornSlot kMaxTornRetries))
    (answer : Except RegionError (Option Heartbeat)) (ha : doing.step cell = .answered answer) :
    answer = .error (tornSlot kMaxTornRetries) := by
  cases hb : doing.busy with
  | false =>
    rw [(step_of_not_busy hb cell).1] at ha
    exact ht answer ha
  | true =>
    rcases observerStep_answer doing cell h hb answer ha with ⟨hzero, _⟩ | ⟨_, heven, _⟩ | herror
    · rw [hzero] at hodd
      cases hodd
    · omega
    · exact herror

theorem step_observer (r : Region) (e : RegionEvent) (observer : Nat)
    (ho : ∀ other, e ≠ .observe observer other) (hs : e ≠ .observerStep observer) :
    (r.step count e).observers observer = r.observers observer := by
  cases e with
  | publish other beat => rfl
  | publisherStep other => rfl
  | observe other slot =>
    apply setObserver_ne
    intro heq
    exact ho slot (by rw [heq])
  | observerStep other =>
    apply setObserver_ne
    intro heq
    exact hs (by rw [heq])

/-- The events that follow the call of an observe: it is not called again. -/
structure Region.Follows (r : Region) (slot observer before : Nat) (es : List RegionEvent) :
    Prop where
  watched : r.Watched slot observer before
  room : r.Room slot es
  once : ∀ other, RegionEvent.observe observer other ∉ es

theorem step_follows {r : Region} {e : RegionEvent} (h : r.Follows slot observer before (e :: es)) :
    (r.step count e).Follows slot observer before es := by
  obtain ⟨hwatched, hroom, honce⟩ := h
  refine ⟨step_watched count hwatched hroom ?_,
    (step_slot count r e es slot hwatched.slotKept hroom).2.1, ?_⟩
  · intro other heq
    exact honce other (heq ▸ (by simp))
  · intro other hmem
    exact honce other (by simp [hmem])

section

variable {r : Region} (h : r.Follows slot observer before es)
include h

theorem run_follows : (run (Region.step count) r es).Follows slot observer before [] :=
  run_inv_ahead (Region.step count) (fun r es => r.Follows slot observer before es)
    (fun _ _ _ hr => step_follows count hr) r es h

omit h in
theorem answered_of_loads {doing : Observing} {cell : Cell} (h : doing.Kept cell)
    (hl : doing.loads = 0) : ∃ answer, doing = .answered answer := by
  cases doing with
  | idle => cases h
  | answered answer => exact ⟨answer, rfl⟩
  | begins attempts =>
    have hattempts : attempts < kMaxTornRetries := h
    simp only [Observing.loads] at hl
    omega
  | reads attempts before field beat =>
    cases field with
    | _ =>
      simp only [Observing.loads] at hl
      omega
  | checks attempts before beat =>
    simp only [Observing.loads] at hl
    omega

theorem run_answers (hl : (r.observers observer).doing.loads ≤ es.count (.observerStep observer)) :
    ∃ answer, ((run (Region.step count) r es).observers observer).doing = .answered answer := by
  have hinv := run_inv_ahead (Region.step count)
    (fun r es => r.Follows slot observer before es ∧
      (r.observers observer).doing.loads ≤ es.count (.observerStep observer))
    (fun r e es h => by
      obtain ⟨hfollows, hloads⟩ := h
      refine ⟨step_follows count hfollows, ?_⟩
      have hwatched := hfollows.watched
      by_cases hstep : e = .observerStep observer
      · rw [hstep, count_cons_self] at hloads
        rw [hstep, Region.step]
        simp only [setObserver_same, hwatched.watches]
        cases hb : (r.observers observer).doing.busy with
        | true =>
          have hless := observerStep_loads _ _ hwatched.observing hb
          omega
        | false =>
          obtain ⟨hstays, hidle | ⟨answer, hanswer⟩⟩ := step_of_not_busy hb (r.slots slot).cell
          · rw [hstays, hidle]
            exact Nat.zero_le _
          · rw [hstays, hanswer]
            exact Nat.zero_le _
      · rw [count_cons_of_ne hstep] at hloads
        rw [step_observer count r e observer _ hstep]
        · exact hloads
        · intro other heq
          exact hfollows.once other (heq ▸ (by simp)))
    r es ⟨h, hl⟩
  exact answered_of_loads hinv.1.watched.observing (Nat.le_zero.mp hinv.2)

/-- When the publisher stopped midway an observe can only answer that the slot is torn. -/
theorem run_torn
    (hm : (r.slots slot).publisher.midway = true) (hs : RegionEvent.publisherStep slot ∉ es)
    (ht : ∀ answer, (r.observers observer).doing = .answered answer →
      answer = .error (tornSlot kMaxTornRetries)) (answer : Except RegionError (Option Heartbeat))
    (ha : ((run (Region.step count) r es).observers observer).doing = .answered answer) :
    answer = .error (tornSlot kMaxTornRetries) := by
  have hinv := run_inv_ahead (Region.step count)
    (fun r es => r.Follows slot observer before es ∧ (r.slots slot).publisher.midway = true ∧
      RegionEvent.publisherStep slot ∉ es ∧
      ∀ answer, (r.observers observer).doing = .answered answer →
        answer = .error (tornSlot kMaxTornRetries))
    (fun r e es h => by
      obtain ⟨hfollows, hmidway, hstopped, htorn⟩ := h
      have hwatched := hfollows.watched
      have hslot := step_stopped count slot r e (midway_busy hmidway)
        fun heq => hstopped (heq ▸ (by simp))
      refine ⟨step_follows count hfollows, ?_, fun hmem => hstopped (by simp [hmem]), ?_⟩
      · rw [hslot]
        exact hmidway
      · by_cases hstep : e = .observerStep observer
        · rw [hstep, Region.step]
          simp only [setObserver_same, hwatched.watches]
          exact observerStep_odd _ _ hwatched.observing (odd_of_midway hwatched.slotKept hmidway)
            htorn
        · rw [step_observer count r e observer _ hstep]
          · exact htorn
          · intro other heq
            exact hfollows.once other (heq ▸ (by simp)))
    r es ⟨h, hm, hs, ht⟩
  exact hinv.2.2.2 answer ha

end

/-- Where an observer is, and what its slot has published, when its observe is called between two
parts of a run. -/
def observingAfter (count slot observer : Nat) (es fs : List RegionEvent) : Observing :=
  ((Region.after count (es ++ .observe observer slot :: fs)).observers observer).doing

def publishedAfter (count slot observer : Nat) (es fs : List RegionEvent) : List Heartbeat :=
  ((Region.after count (es ++ .observe observer slot :: fs)).slots slot).published

/-- What an observe of a slot promises, when it is called after one part of a run and the rest
follows. -/
structure NeverTorn (count slot observer : Nat) (es fs : List RegionEvent) : Prop where
  whole : ∀ beat, observingAfter count slot observer es fs = .answered (.ok (some beat)) →
    ∃ k, (publishedAfter count slot observer es fs)[k]? = some beat ∧
      ((Region.after count es).slots slot).published.length ≤ k + 1
  silent : observingAfter count slot observer es fs = .answered (.ok none) →
    ((Region.after count es).slots slot).published = []
  first : publishedAfter count slot observer es fs = [] →
    ∀ beat, observingAfter count slot observer es fs ≠ .answered (.ok (some beat))
  attempts : ∀ attempts, observingAfter count slot observer es fs = .begins attempts →
    attempts < kMaxTornRetries
  returns : 6 * kMaxTornRetries ≤ fs.count (.observerStep observer) →
    ∃ answer, observingAfter count slot observer es fs = .answered answer
  stuck : slot < count → ∀ es₁ es₂, es = es₁ ++ es₂ →
    ((Region.after count es₁).slots slot).publisher.midway = true →
    RegionEvent.publisherStep slot ∉ es₂ → RegionEvent.publisherStep slot ∉ fs → ∀ answer,
      observingAfter count slot observer es fs = .answered answer →
        answer = .error (tornSlot kMaxTornRetries)

/-- Every beat an observe returns was published whole, and is as new as any complete at the call. -/
theorem heartbeats_are_never_torn (count slot observer : Nat) (es fs : List RegionEvent)
    (hc : (es ++ fs).countP (RegionEvent.publishes slot) < 2 ^ 63)
    (hb : ((Region.after count es).observers observer).doing.busy = false)
    (ho : ∀ other, RegionEvent.observe observer other ∉ fs) :
    NeverTorn count slot observer es fs := by
  obtain ⟨hkept, hroom⟩ := after_kept count slot es fs hc
  have hcall := step_observe count slot observer _ hb
  have hbegins : ((Region.after count es).step count (.observe observer slot)).Follows slot observer
      ((Region.after count es).slots slot).published.length fs :=
    ⟨observe_watched count slot observer _ hkept hb, hroom, ho⟩
  have hends := (run_follows count hbegins).watched
  have hwhole : ∀ beat, observingAfter count slot observer es fs = .answered (.ok (some beat)) →
      ∃ k, (publishedAfter count slot observer es fs)[k]? = some beat ∧
        ((Region.after count es).slots slot).published.length ≤ k + 1 := by
    rw [observingAfter, publishedAfter, after_append, run_cons]
    exact hends.whole
  refine ⟨hwhole, ?_, ?_, ?_, ?_, ?_⟩
  · rw [observingAfter, after_append, run_cons]
    intro hsilent
    exact eq_nil_of_length_eq_zero (hends.silent hsilent)
  · intro hnone beat hanswer
    obtain ⟨k, hk, _⟩ := hwhole beat hanswer
    rw [hnone] at hk
    cases hk
  · rw [observingAfter, after_append, run_cons]
    intro attempts hattempts
    have hobserving := hends.observing
    rw [hattempts] at hobserving
    exact hobserving
  · intro hloads
    rw [observingAfter, after_append, run_cons]
    apply run_answers count hbegins
    rw [hcall]
    split_ifs with hrange
    · exact Nat.zero_le _
    · exact hloads
  · intro hrange es₁ es₂ hes hmidway hstopped hstill answer hanswer
    rw [observingAfter, after_append, run_cons] at hanswer
    have hslot : ((Region.after count es).slots slot) = (Region.after count es₁).slots slot := by
      rw [hes, after_append]
      exact run_stopped count slot _ es₂ (midway_busy hmidway) hstopped
    refine run_torn count hbegins ?_ hstill ?_ answer hanswer
    · rw [← hslot] at hmidway
      exact hmidway
    · intro earlier hearlier
      rw [hcall, if_neg (Nat.not_le.mpr hrange)] at hearlier
      cases hearlier

def earlyBeat : List RegionEvent :=
  [.publish 1 ⟨5, 6, 7, 8⟩] ++ List.replicate 7 (.publisherStep 1)

def spoilingBeat : List RegionEvent :=
  [.observerStep 0, .observerStep 0, .publish 1 ⟨9, 10, 7, 8⟩] ++
    List.replicate 7 (.publisherStep 1) ++ List.replicate 10 (.observerStep 0)

/-- A publish spoils the first attempt of an observe, and the second brings its beat. -/
theorem spoilt_attempt_is_never_torn :
    NeverTorn 2 1 0 earlyBeat spoilingBeat ∧
      observingAfter 2 1 0 earlyBeat spoilingBeat = .answered (.ok (some ⟨9, 10, 7, 8⟩)) :=
  ⟨heartbeats_are_never_torn 2 1 0 _ _ (by decide) (by rfl) (fun other h => by
    simp [spoilingBeat, List.replicate] at h), by rfl⟩

end LoadForge.Ipc
