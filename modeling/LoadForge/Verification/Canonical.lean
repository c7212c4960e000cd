import LoadForge.Verification.Encode

namespace LoadForge.Verification

open Framework List Option

/-- From one cursor to another the reader went over these bytes. -/
def Spans (bytes : List UInt8) (c c' : Cursor) : Prop :=
  c.rest = bytes ++ c'.rest ∧ c'.offset = c.offset + bytes.length

/-- A reader that answers exactly on the bytes its writer writes of the values that keep `ok`. -/
def Reads {α : Type} (get : Reader α) (put : α → List UInt8) (ok : α → Prop) : Prop :=
  ∀ c a c', get c = .ok (a, c') ↔ ok a ∧ Spans (put a) c c'

theorem spans_append (x y : List UInt8) (c c' : Cursor) :
    Spans (x ++ y) c c' ↔ ∃ m, Spans x c m ∧ Spans y m c' := by
  constructor
  · rintro ⟨hrest, hoffset⟩
    refine ⟨⟨c.offset + x.length, y ++ c'.rest⟩, ⟨?_, rfl⟩, rfl, ?_⟩
    · rw [hrest, append_assoc]
    · rw [hoffset, length_append, Nat.add_assoc]
  · rintro ⟨m, ⟨hx, hxo⟩, hy, hyo⟩
    refine ⟨?_, ?_⟩
    · rw [hx, hy, append_assoc]
    · rw [hyo, hxo, length_append, Nat.add_assoc]

theorem bind_eq {α β : Type} (r : Reader α) (f : α → Reader β) (c c' : Cursor) (b : β) :
    (r >>= f) c = .ok (b, c') ↔ ∃ a m, r c = .ok (a, m) ∧ f a m = .ok (b, c') := by
  simp only [bind]
  cases r c with
  | error e => simp
  | ok answer =>
    obtain ⟨a, m⟩ := answer
    constructor
    · intro h
      exact ⟨a, m, rfl, h⟩
    · rintro ⟨a', m', heq, h⟩
      cases heq
      exact h

theorem pure_eq {α : Type} (a b : α) (c c' : Cursor) :
    (pure a : Reader α) c = .ok (b, c') ↔ b = a ∧ c' = c := by
  simp only [pure, Except.ok.injEq, Prod.mk.injEq]
  constructor
  · rintro ⟨h, h'⟩
    exact ⟨h.symm, h'.symm⟩
  · rintro ⟨h, h'⟩
    exact ⟨h.symm, h'.symm⟩

variable (field : String)

theorem take_eq (count : Nat) (c c' : Cursor) (bytes : List UInt8) :
    Reader.take field count c = .ok (bytes, c') ↔ bytes.length = count ∧ Spans bytes c c' := by
  simp only [Reader.take]
  constructor
  · intro h
    split_ifs at h with hle
    cases h
    have hlen : (c.rest.take count).length = count := by
      rw [length_take]
      omega
    refine ⟨hlen, (take_append_drop count c.rest).symm, ?_⟩
    rw [hlen]
  · rintro ⟨hlen, hrest, hoffset⟩
    have hle : count ≤ c.rest.length := by
      rw [hrest, length_append]
      omega
    rw [if_pos hle, hrest, take_left' hlen, drop_left' hlen, ← hlen, ← hoffset]

theorem unsignedLe_eq (width value : Nat) (c c' : Cursor) :
    Reader.unsignedLe field width c = .ok (value, c') ↔
      value < 256 ^ width ∧ Spans (leBytes width value) c c' := by
  simp only [Reader.unsignedLe, bind_eq, take_eq, pure_eq]
  constructor
  · rintro ⟨bytes, m, ⟨hlen, hspan⟩, rfl, rfl⟩
    refine ⟨by rw [← hlen]; exact leNat_lt bytes, ?_⟩
    rw [← hlen, leBytes_leNat]
    exact hspan
  · rintro ⟨hlt, hspan⟩
    exact ⟨leBytes width value, c', ⟨leBytes_length width value, hspan⟩,
      (leNat_leBytes_of_lt width value hlt).symm, rfl⟩

/-- A word is read of the bytes of its number, the least first. -/
theorem word_reads {α : Type} (width : Nat) (ofNat : Nat → α) (toNat : α → Nat)
    (hof : ∀ value < 256 ^ width, toNat (ofNat value) = value) (hto : ∀ a, ofNat (toNat a) = a)
    (hlt : ∀ a, toNat a < 256 ^ width) :
    Reads (Reader.unsignedLe field width >>= fun value => pure (ofNat value))
      (fun a => leBytes width (toNat a)) fun _ => True := by
  intro c a c'
  simp only [bind_eq, unsignedLe_eq, pure_eq, true_and]
  constructor
  · rintro ⟨value, m, ⟨hvalue, hspan⟩, rfl, rfl⟩
    rw [hof value hvalue]
    exact hspan
  · intro hspan
    exact ⟨toNat a, c', ⟨hlt a, hspan⟩, (hto a).symm, rfl⟩

theorem u8_reads : Reads (Reader.u8 field) putU8 fun _ => True :=
  word_reads field 1 _ _ (fun _ => UInt8.toNat_ofNat_of_lt') (fun _ => UInt8.ofNat_toNat)
    UInt8.toNat_lt

theorem u32_reads : Reads (Reader.u32 field) putU32 fun _ => True :=
  word_reads field 4 _ _ (fun _ => UInt32.toNat_ofNat_of_lt') (fun _ => UInt32.ofNat_toNat)
    UInt32.toNat_lt

theorem u64_reads : Reads (Reader.u64 field) putU64 fun _ => True :=
  word_reads field 8 _ _ (fun _ => UInt64.toNat_ofNat_of_lt') (fun _ => UInt64.ofNat_toNat)
    UInt64.toNat_lt

theorem position_eq (c c' : Cursor) (offset : Nat) :
    Reader.position c = .ok (offset, c') ↔ offset = c.offset ∧ c' = c := by
  simp only [Reader.position, Except.ok.injEq, Prod.mk.injEq]
  constructor
  · rintro ⟨rfl, rfl⟩
    exact ⟨rfl, rfl⟩
  · rintro ⟨rfl, rfl⟩
    exact ⟨rfl, rfl⟩

theorem raw_reads (field what : String) (limit : Nat) (hlimit : limit < 2 ^ 64) :
    Reads (Reader.raw field what limit) putRaw fun bytes => bytes.length ≤ limit := by
  intro c a c'
  simp only [Reader.raw, bind_eq, position_eq, u64_reads field _ _ _, true_and]
  constructor
  · rintro ⟨offset, m, ⟨rfl, rfl⟩, length, m', hlength, h⟩
    by_cases hover : limit < length.toNat
    · rw [if_pos hover] at h
      cases h
    · rw [if_neg hover, take_eq] at h
      obtain ⟨hlen, hbytes⟩ := h
      refine ⟨by omega, (spans_append _ _ _ _).mpr ⟨m', ?_, hbytes⟩⟩
      rw [hlen]
      exact hlength
  · rintro ⟨hle, hspan⟩
    obtain ⟨m, hlength, hbytes⟩ := (spans_append _ _ _ _).mp hspan
    have hto : (UInt64.ofNat a.length).toNat = a.length :=
      UInt64.toNat_ofNat_of_lt' (by simp only [UInt64.size]; omega)
    refine ⟨c.offset, c, ⟨rfl, rfl⟩, UInt64.ofNat a.length, m, ?_, ?_⟩
    · rw [putU64, hto]
      exact hlength
    · rw [hto, if_neg (by omega), take_eq]
      exact ⟨rfl, hbytes⟩

theorem text_reads : Reads (Reader.text field) putRaw fun bytes => bytes.length ≤ kMaxTextBytes :=
  raw_reads field "a text" kMaxTextBytes (by decide)

theorem window_reads :
    Reads (Reader.window field) putRaw fun bytes => bytes.length ≤ kMaxWindowBytes :=
  raw_reads field "a window" kMaxWindowBytes (by decide)

theorem presence_reads : Reads (Reader.presence field) putPresence fun _ => True := by
  intro c a c'
  simp only [Reader.presence, bind_eq, position_eq, u8_reads field _ _ _, true_and]
  constructor
  · rintro ⟨offset, m, ⟨rfl, rfl⟩, flag, m', hflag, h⟩
    by_cases hover : 1 < flag
    · rw [if_pos hover] at h
      cases h
    · rw [if_neg hover, pure_eq] at h
      obtain ⟨rfl, rfl⟩ := h
      have hvalue : (if decide (flag = 1) = true then 1 else 0) = flag := by
        by_cases h1 : flag = 1
        · simp [h1]
        · have h0 : flag = 0 := by
            apply UInt8.toNat_inj.mp
            have hle := UInt8.not_lt.mp hover
            have hne : flag.toNat ≠ 1 := fun h => h1 (UInt8.toNat_inj.mp h)
            have hnat : flag.toNat ≤ 1 := hle
            show flag.toNat = 0
            omega
          simp [h0]
      rw [putPresence, hvalue]
      exact hflag
  · intro hspan
    refine ⟨c.offset, c, ⟨rfl, rfl⟩, if a then 1 else 0, c', hspan, ?_⟩
    cases a with
    | false => rw [if_neg (by decide), pure_eq]; exact ⟨rfl, rfl⟩
    | true => rw [if_neg (by decide), pure_eq]; exact ⟨rfl, rfl⟩

theorem optional_reads {α : Type} {value : Reader α} {put : α → List UInt8} {ok : α → Prop}
    (hvalue : Reads value put ok) :
    Reads (Reader.optional field value) (putOptional put) fun o => ∀ a ∈ o, ok a := by
  intro c o c'
  simp only [Reader.optional, bind_eq, presence_reads field _ _ _, true_and]
  constructor
  · rintro ⟨present, m, hflag, h⟩
    cases present with
    | false =>
      rw [if_neg (by decide), pure_eq] at h
      obtain ⟨rfl, rfl⟩ := h
      exact ⟨by simp, hflag⟩
    | true =>
      rw [if_pos rfl, bind_eq] at h
      obtain ⟨a, m', ha, h⟩ := h
      rw [pure_eq] at h
      obtain ⟨rfl, rfl⟩ := h
      obtain ⟨hok, hspan⟩ := (hvalue _ _ _).mp ha
      refine ⟨by simpa using hok, (spans_append _ _ _ _).mpr ⟨m, hflag, hspan⟩⟩
  · rintro ⟨hok, hspan⟩
    cases o with
    | none =>
      refine ⟨false, c', hspan, ?_⟩
      rw [if_neg (by decide), pure_eq]
      exact ⟨rfl, rfl⟩
    | some a =>
      obtain ⟨m, hflag, ha⟩ := (spans_append _ _ _ _).mp hspan
      refine ⟨true, m, hflag, ?_⟩
      rw [if_pos rfl, bind_eq]
      exact ⟨a, c', (hvalue _ _ _).mpr ⟨hok a rfl, ha⟩, (pure_eq _ _ _ _).mpr ⟨rfl, rfl⟩⟩

theorem optional_reads_any {α : Type} {value : Reader α} {put : α → List UInt8}
    (hvalue : Reads value put fun _ => True) (c c' : Cursor) (o : Option α) :
    Reader.optional field value c = .ok (o, c') ↔ Spans (putOptional put o) c c' := by
  rw [optional_reads field hvalue]
  simp

theorem optionalU8_eq (c c' : Cursor) (o : Option UInt8) :
    Reader.optionalU8 field c = .ok (o, c') ↔ Spans (putOptional putU8 o) c c' :=
  optional_reads_any field (u8_reads field) c c' o

theorem optionalU32_eq (c c' : Cursor) (o : Option UInt32) :
    Reader.optionalU32 field c = .ok (o, c') ↔ Spans (putOptional putU32 o) c c' :=
  optional_reads_any field (u32_reads field) c c' o

theorem optionalU64_eq (c c' : Cursor) (o : Option UInt64) :
    Reader.optionalU64 field c = .ok (o, c') ↔ Spans (putOptional putU64 o) c c' :=
  optional_reads_any field (u64_reads field) c c' o

theorem duty_reads : Reads getDuty putDuty fun _ => True := by
  intro c a c'
  simp only [getDuty, bind_eq, u32_reads _ _ _ _, pure_eq, true_and, putDuty, spans_append]
  constructor
  · rintro ⟨oracle, m, horacle, integrity, m', hintegrity, rfl, rfl⟩
    exact ⟨m, horacle, hintegrity⟩
  · rintro ⟨m, horacle, hintegrity⟩
    exact ⟨_, m, horacle, _, c', hintegrity, rfl, rfl⟩

/-- The one text of a provenance is no longer than a record carries. -/
def Provenance.WithinLimits (p : Provenance) : Prop :=
  ∀ w ∈ p.workload, w.length ≤ kMaxTextBytes

theorem provenance_reads : Reads getProvenance putProvenance Provenance.WithinLimits := by
  intro c p c'
  simp only [getProvenance, bind_eq, optionalU8_eq, optionalU32_eq, optionalU64_eq, pure_eq,
    optional_reads "workload" (text_reads "workload") _ _ _,
    optional_reads_any "duty" duty_reads, putProvenance, spans_append]
  constructor
  · rintro ⟨_, m1, h1, _, m2, h2, _, m3, h3, _, m4, h4, _, m5, h5, _, m6, h6, _, m7, ⟨hw, h7⟩,
      _, m8, h8, _, m9, h9, _, m10, h10, _, m11, h11, _, m12, h12, _, m13, h13, _, m14, h14,
      _, m15, h15, rfl, rfl⟩
    exact ⟨hw, m1, h1, m2, h2, m3, h3, m4, h4, m5, h5, m6, h6, m7, h7, m8, h8, m9, h9, m10, h10,
      m11, h11, m12, h12, m13, h13, m14, h14, h15⟩
  · rintro ⟨hw, m1, h1, m2, h2, m3, h3, m4, h4, m5, h5, m6, h6, m7, h7, m8, h8, m9, h9, m10, h10,
      m11, h11, m12, h12, m13, h13, m14, h14, h15⟩
    exact ⟨_, m1, h1, _, m2, h2, _, m3, h3, _, m4, h4, _, m5, h5, _, m6, h6, _, m7, ⟨hw, h7⟩,
      _, m8, h8, _, m9, h9, _, m10, h10, _, m11, h11, _, m12, h12, _, m13, h13, _, m14, h14,
      _, c', h15, rfl, rfl⟩

def Difference.WithinLimits (d : Difference) : Prop :=
  d.expected.length ≤ kMaxWindowBytes ∧ d.actual.length ≤ kMaxWindowBytes

theorem difference_reads : Reads getDifference putDifference Difference.WithinLimits := by
  intro c d c'
  simp only [getDifference, bind_eq, u8_reads _ _ _ _, u64_reads _ _ _ _, window_reads _ _ _ _,
    pure_eq, true_and, putDifference, spans_append, Difference.WithinLimits]
  constructor
  · rintro ⟨_, m1, h1, _, m2, h2, _, m3, h3, _, m4, h4, _, m5, h5, _, m6, ⟨he, h6⟩, _, m7,
      ⟨ha, h7⟩, rfl, rfl⟩
    exact ⟨⟨he, ha⟩, m1, h1, m2, h2, m3, h3, m4, h4, m5, h5, m6, h6, h7⟩
  · rintro ⟨⟨he, ha⟩, m1, h1, m2, h2, m3, h3, m4, h4, m5, h5, m6, h6, h7⟩
    exact ⟨_, m1, h1, _, m2, h2, _, m3, h3, _, m4, h4, _, m5, h5, _, m6, ⟨he, h6⟩, _, c',
      ⟨ha, h7⟩, rfl, rfl⟩

/-- The texts and windows of a record are no longer than a record carries. -/
def ErrorRecord.WithinLimits (r : ErrorRecord) : Prop :=
  (provenanceOf r).WithinLimits ∧
    match r with
    | .exact r => r.check.length ≤ kMaxTextBytes ∧ ∀ d ∈ r.difference, d.WithinLimits
    | .numerical r => r.check.length ≤ kMaxTextBytes
    | .notPerformed r => r.what.length ≤ kMaxTextBytes ∧ r.why.length ≤ kMaxTextBytes

section

variable (p : Provenance) (r : ErrorRecord) (c c' : Cursor)

theorem exact_eq :
    getExact p c = .ok (r, c') ↔
      ∃ e : ExactBitCorruption, r = .exact e ∧ e.provenance = p ∧
        (e.check.length ≤ kMaxTextBytes ∧ ∀ d ∈ e.difference, d.WithinLimits) ∧
        Spans (putKind r) c c' := by
  simp only [getExact, bind_eq, u8_reads _ _ _ _, u32_reads _ _ _ _, text_reads _ _ _ _,
    optional_reads _ difference_reads _ _ _, pure_eq, true_and]
  constructor
  · rintro ⟨side, m1, h1, check, m2, ⟨hcheck, h2⟩, line, m3, h3, difference, m4,
      ⟨hdifference, h4⟩, rfl, rfl⟩
    refine ⟨_, rfl, rfl, ⟨hcheck, hdifference⟩, ?_⟩
    simp only [putKind, spans_append]
    exact ⟨m1, h1, m2, h2, m3, h3, h4⟩
  · rintro ⟨e, rfl, rfl, ⟨hcheck, hdifference⟩, hspan⟩
    simp only [putKind, spans_append] at hspan
    obtain ⟨m1, h1, m2, h2, m3, h3, h4⟩ := hspan
    exact ⟨_, m1, h1, _, m2, ⟨hcheck, h2⟩, _, m3, h3, _, c', ⟨hdifference, h4⟩, rfl, rfl⟩

theorem numerical_eq :
    getNumerical p c = .ok (r, c') ↔
      ∃ e : NumericalVerificationFailure, r = .numerical e ∧ e.provenance = p ∧
        e.check.length ≤ kMaxTextBytes ∧ Spans (putKind r) c c' := by
  simp only [getNumerical, bind_eq, u64_reads _ _ _ _, text_reads _ _ _ _, optionalU64_eq,
    optional_reads_any _ (u64_reads _), pure_eq, true_and]
  constructor
  · rintro ⟨check, m1, ⟨hcheck, h1⟩, residual, m2, h2, tolerance, m3, h3, condition, m4, h4,
      element, m5, h5, rfl, rfl⟩
    refine ⟨_, rfl, rfl, hcheck, ?_⟩
    simp only [putKind, spans_append]
    exact ⟨m1, h1, m2, h2, m3, h3, m4, h4, h5⟩
  · rintro ⟨e, rfl, rfl, hcheck, hspan⟩
    simp only [putKind, spans_append] at hspan
    obtain ⟨m1, h1, m2, h2, m3, h3, m4, h4, h5⟩ := hspan
    exact ⟨_, m1, ⟨hcheck, h1⟩, _, m2, h2, _, m3, h3, _, m4, h4, _, c', h5, rfl, rfl⟩

theorem notPerformed_eq :
    getNotPerformed p c = .ok (r, c') ↔
      ∃ e : VerificationNotPerformed, r = .notPerformed e ∧ e.provenance = p ∧
        (e.what.length ≤ kMaxTextBytes ∧ e.why.length ≤ kMaxTextBytes) ∧
        Spans (putKind r) c c' := by
  simp only [getNotPerformed, bind_eq, u64_reads _ _ _ _, text_reads _ _ _ _, pure_eq, true_and]
  constructor
  · rintro ⟨what, m1, ⟨hwhat, h1⟩, why, m2, ⟨hwhy, h2⟩, blocks, m3, h3, rfl, rfl⟩
    refine ⟨_, rfl, rfl, ⟨hwhat, hwhy⟩, ?_⟩
    simp only [putKind, spans_append]
    exact ⟨m1, h1, m2, h2, h3⟩
  · rintro ⟨e, rfl, rfl, ⟨hwhat, hwhy⟩, hspan⟩
    simp only [putKind, spans_append] at hspan
    obtain ⟨m1, h1, m2, h2, h3⟩ := hspan
    exact ⟨_, m1, ⟨hwhat, h1⟩, _, m2, ⟨hwhy, h2⟩, _, c', h3, rfl, rfl⟩

end

/-- The fields are read exactly from what the encoder writes of a record within its limits. -/
theorem getRecord_eq (kind : UInt8) (hkind : 1 ≤ kind ∧ kind ≤ 3) (r : ErrorRecord)
    (c c' : Cursor) :
    getRecord kind c = .ok (r, c') ↔
      kindCode r = kind ∧ r.WithinLimits ∧
        Spans (putProvenance (provenanceOf r) ++ putKind r) c c' := by
  have hcodes : kind = 1 ∨ kind = 2 ∨ kind = 3 := by
    obtain ⟨hlow, hhigh⟩ := hkind
    have hlow' : 1 ≤ kind.toNat := hlow
    have hhigh' : kind.toNat ≤ 3 := hhigh
    have hnat : kind.toNat = 1 ∨ kind.toNat = 2 ∨ kind.toNat = 3 := by omega
    rcases hnat with h | h | h
    · exact .inl (UInt8.toNat_inj.mp h)
    · exact .inr (.inl (UInt8.toNat_inj.mp h))
    · exact .inr (.inr (UInt8.toNat_inj.mp h))
  simp only [getRecord, bind_eq, provenance_reads _ _ _, spans_append]
  constructor
  · rintro ⟨p, m, ⟨hp, hspan⟩, h⟩
    rcases hcodes with rfl | rfl | rfl
    · rw [if_pos rfl, exact_eq] at h
      obtain ⟨e, rfl, rfl, hlimits, hkind⟩ := h
      exact ⟨rfl, ⟨hp, hlimits⟩, m, hspan, hkind⟩
    · rw [if_neg (by decide), if_pos rfl, numerical_eq] at h
      obtain ⟨e, rfl, rfl, hlimits, hkind⟩ := h
      exact ⟨rfl, ⟨hp, hlimits⟩, m, hspan, hkind⟩
    · rw [if_neg (by decide), if_neg (by decide), notPerformed_eq] at h
      obtain ⟨e, rfl, rfl, hlimits, hkind⟩ := h
      exact ⟨rfl, ⟨hp, hlimits⟩, m, hspan, hkind⟩
  · rintro ⟨rfl, ⟨hp, hlimits⟩, m, hspan, hkind⟩
    refine ⟨provenanceOf r, m, ⟨hp, hspan⟩, ?_⟩
    cases r with
    | exact e => exact (exact_eq _ _ _ _).mpr ⟨e, rfl, rfl, hlimits, hkind⟩
    | numerical e => exact (numerical_eq _ _ _ _).mpr ⟨e, rfl, rfl, hlimits, hkind⟩
    | notPerformed e => exact (notPerformed_eq _ _ _ _).mpr ⟨e, rfl, rfl, hlimits, hkind⟩

theorem rule_none {p : Prop} [Decidable p] (words : String) (next : Option String) :
    (if p then some words else next) = none ↔ ¬p ∧ next = none := by
  by_cases h : p
  · simp [h]
  · simp [h]

theorem brokenDifferenceRule_none (d : Difference) :
    brokenDifferenceRule d = none ↔ d.isValid = true := by
  have hdiffers : differsAt d d.firstOffset = true → inWindow d d.firstOffset = true := by
    intro h
    exact (Bool.and_eq_true_iff.mp h).1
  have hpopcount : ¬d.popcount = 0 ↔ 1 ≤ d.popcount := by
    rw [UInt64.le_iff_toNat_le, ← UInt64.toNat_inj]
    show ¬d.popcount.toNat = 0 ↔ 1 ≤ d.popcount.toNat
    omega
  simp only [brokenDifferenceRule, rule_none, Difference.isValid, Bool.and_eq_true,
    Bool.or_eq_true, decide_eq_true_eq, beq_iff_eq, Bool.not_eq_true', UInt8.not_lt,
    UInt64.not_lt, hpopcount, not_not, Nat.not_lt, isEmpty_eq_false_iff]
  constructor
  · rintro ⟨hdomain, hpop, horder, hword, hlen, hne, hmax, hin, hfirst, hlast, -⟩
    refine ⟨⟨⟨⟨⟨⟨⟨⟨hdomain, hpop⟩, horder⟩, hword⟩, hlen⟩, hne⟩, hmax⟩, by simpa using hfirst⟩, ?_⟩
    cases hw : inWindow d d.lastOffset with
    | false => exact .inl rfl
    | true => exact .inr (by simpa [hw] using hlast)
  · rintro ⟨⟨⟨⟨⟨⟨⟨⟨hdomain, hpop⟩, horder⟩, hword⟩, hlen⟩, hne⟩, hmax⟩, hfirst⟩, hlast⟩
    refine ⟨hdomain, hpop, horder, hword, hlen, hne, hmax, by simpa using hdiffers hfirst,
      by simpa using hfirst, ?_, trivial⟩
    rintro ⟨hin, hsame⟩
    rcases hlast with h | h
    · simp [hin] at h
    · simp [hsame] at h

theorem brokenProvenanceRule_none (p : Provenance) :
    brokenProvenanceRule p = none ↔ p.isValid = true := by
  have hfilter : ∀ {α : Type} (o : Option α) (bad good : α → Bool),
      (∀ a, good a = !bad a) → (o.filter bad = none ↔ o.all good = true) := by
    intro α o bad good hgood
    cases o with
    | none => simp
    | some a => simp [filter_some, hgood]
  have hworkload := hfilter p.workload (fun w => kMaxTextBytes < w.length)
    (fun w => w.length ≤ kMaxTextBytes) (fun w => by simp only [← decide_not, Nat.not_lt])
  have hisa := hfilter p.isa (fun isa => kIsaPathCount ≤ isa.toNat)
    (fun isa => isa.toNat < kIsaPathCount) (fun isa => by simp only [← decide_not, Nat.not_le])
  have hinput := hfilter p.inputIntegrity (fun i => 3 < i) (fun i => i ≤ 3)
    (fun i => by simp only [← decide_not, UInt8.not_lt])
  simp only [brokenProvenanceRule, Provenance.isValid, Bool.and_eq_true, ← hworkload, ← hisa,
    ← hinput]
  cases p.workload.filter fun w => kMaxTextBytes < w.length with
  | some w => simp
  | none =>
    cases p.isa.filter fun isa => kIsaPathCount ≤ isa.toNat with
    | some isa => simp
    | none =>
      cases p.inputIntegrity.filter fun i => 3 < i with
      | some i => simp
      | none => simp

section

variable (shortest : UInt64 → String)

section

variable (r : ErrorRecord)

theorem brokenRule_none : brokenRule shortest r = none ↔ r.isValid = true := by
  rw [brokenRule.eq_def, or_eq_none_iff, brokenProvenanceRule_none,
    ErrorRecord.isValid.eq_def, Bool.and_eq_true]
  apply and_congr_right
  intro _
  cases r with
  | exact e =>
    have hdifference : e.difference.bind brokenDifferenceRule = none ↔
        e.difference.all Difference.isValid = true := by
      cases e.difference with
      | none => simp
      | some d => simpa using brokenDifferenceRule_none d
    simp only [brokenExactRule, rule_none, hdifference, Bool.and_eq_true, decide_eq_true_eq,
      UInt8.not_lt, UInt64.not_lt, Nat.not_lt, Bool.not_eq_true', Bool.not_eq_false,
      isEmpty_eq_false_iff, and_assoc, ne_eq]
  | numerical e =>
    simp only [brokenNumericalRule, rule_none, Bool.and_eq_true, decide_eq_true_eq, Nat.not_lt,
      Bool.not_eq_true', Bool.not_eq_false, Int.not_le, and_assoc, and_true]
  | notPerformed e =>
    simp only [brokenNotPerformedRule, rule_none, Bool.and_eq_true, decide_eq_true_eq,
      Nat.not_lt, and_true]

theorem isValid_withinLimits (hvalid : r.isValid = true) : r.WithinLimits := by
  rw [ErrorRecord.isValid.eq_def, Bool.and_eq_true] at hvalid
  obtain ⟨hprovenance, hkind⟩ := hvalid
  refine ⟨?_, ?_⟩
  · simp only [Provenance.isValid, Bool.and_eq_true] at hprovenance
    intro w hw
    have hall := hprovenance.1.1
    rw [mem_def.mp hw] at hall
    simpa using hall
  · cases r with
    | exact e =>
      simp only [Bool.and_eq_true, decide_eq_true_eq] at hkind
      refine ⟨hkind.1.1.1.2, ?_⟩
      intro d hd
      have hall := hkind.2
      rw [mem_def.mp hd] at hall
      simp only [all_some, Difference.isValid, Bool.and_eq_true, decide_eq_true_eq,
        beq_iff_eq] at hall
      have hmax := hall.1.1.2
      have hlen := hall.1.1.1.1.2
      exact ⟨hmax, hlen ▸ hmax⟩
    | numerical e =>
      simp only [Bool.and_eq_true, decide_eq_true_eq] at hkind
      exact hkind.1.1.1
    | notPerformed e =>
      simp only [Bool.and_eq_true, decide_eq_true_eq] at hkind
      exact hkind

theorem encode_eq :
    encode r = kRecordFormatVersion :: kindCode r ::
      (putProvenance (provenanceOf r) ++ putKind r) := by
  cases r <;> rfl

theorem kindCode_range : 1 ≤ kindCode r ∧ kindCode r ≤ 3 := by
  cases r with
  | exact e => exact (by decide : (1 : UInt8) ≤ 1 ∧ (1 : UInt8) ≤ 3)
  | numerical e => exact (by decide : (1 : UInt8) ≤ 2 ∧ (2 : UInt8) ≤ 3)
  | notPerformed e => exact (by decide : (1 : UInt8) ≤ 3 ∧ (3 : UInt8) ≤ 3)

/-- What was written parses to the record, so the decoder's answer is its rules'. -/
theorem decode_encode (hlimits : r.WithinLimits) :
    decode shortest (encode r) =
      match brokenRule shortest r with
      | some rule => .error ⟨.kInvalid, rule⟩
      | none => .ok r := by
  have hparse : getRecord (kindCode r)
      ⟨kHeaderBytes, putProvenance (provenanceOf r) ++ putKind r⟩ =
      .ok (r, ⟨kHeaderBytes + (putProvenance (provenanceOf r) ++ putKind r).length, []⟩) := by
    rw [getRecord_eq _ (kindCode_range r)]
    exact ⟨rfl, hlimits, (append_nil _).symm, rfl⟩
  have hkind : ¬(kindCode r < 1 ∨ 3 < kindCode r) := by
    rw [not_or, UInt8.not_lt, UInt8.not_lt]
    exact kindCode_range r
  rw [encode_eq, decode, if_neg (by simp)]
  simp only [hparse, hkind, if_false]
  cases brokenRule shortest r with
  | some rule => rfl
  | none => rfl

end

theorem decode_ok (bytes : List UInt8) (r : ErrorRecord)
    (h : decode shortest bytes = .ok r) : r.isValid = true ∧ encode r = bytes := by
  cases bytes with
  | nil => cases h
  | cons version rest =>
    simp only [decode] at h
    by_cases hversion : version ≠ kRecordFormatVersion
    · rw [if_pos hversion] at h
      cases h
    rw [if_neg hversion] at h
    rw [not_not] at hversion
    cases rest with
    | nil => cases h
    | cons kind fields =>
      simp only at h
      by_cases hkind : kind < 1 ∨ 3 < kind
      · rw [if_pos hkind] at h
        cases h
      rw [if_neg hkind] at h
      rw [not_or, UInt8.not_lt, UInt8.not_lt] at hkind
      cases hparse : getRecord kind ⟨kHeaderBytes, fields⟩ with
      | error e =>
        rw [hparse] at h
        cases h
      | ok answer =>
        obtain ⟨record, left⟩ := answer
        rw [hparse] at h
        simp only at h
        cases hrule : brokenRule shortest record with
        | some rule =>
          rw [hrule] at h
          cases h
        | none =>
          rw [hrule] at h
          simp only at h
          by_cases hleft : left.rest.length ≠ 0
          · rw [if_pos hleft] at h
            cases h
          rw [if_neg hleft] at h
          cases h
          obtain ⟨rfl, -, hfields, -⟩ := (getRecord_eq kind hkind _ _ _).mp hparse
          have hnil : left.rest = [] := length_eq_zero_iff.mp (not_not.mp hleft)
          simp only [hnil, append_nil] at hfields
          refine ⟨(brokenRule_none shortest _).mp hrule, ?_⟩
          rw [encode_eq, hversion, hfields]

end

/-- Valid records come back, invalid ones are refused, and what decodes is the encoding of a valid
record. -/
theorem codec_is_canonical (shortest : UInt64 → String) :
    (∀ r : ErrorRecord, r.isValid = true → decode shortest (encode r) = .ok r) ∧
    (∀ r : ErrorRecord, r.isValid = false → r.WithinLimits →
      ∃ detail, decode shortest (encode r) = .error ⟨.kInvalid, detail⟩) ∧
    ∀ (bytes : List UInt8) (r : ErrorRecord), decode shortest bytes = .ok r →
      r.isValid = true ∧ encode r = bytes := by
  refine ⟨?_, ?_, decode_ok shortest⟩
  · intro r hvalid
    rw [decode_encode shortest r (isValid_withinLimits r hvalid),
      (brokenRule_none shortest r).mpr hvalid]
  · intro r hinvalid hlimits
    rw [decode_encode shortest r hlimits]
    cases hrule : brokenRule shortest r with
    | some rule => exact ⟨rule, rfl⟩
    | none =>
      rw [(brokenRule_none shortest r).mp hrule] at hinvalid
      cases hinvalid

end LoadForge.Verification
