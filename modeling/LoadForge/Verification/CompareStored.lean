import LoadForge.Verification.Encode

namespace LoadForge.Verification.Integrity

open List

/-- Two buffers that are compared, each of fewer than 2^61 bytes. -/
structure Compared where
  expected : List UInt8
  actual : List UInt8
  sizes : expected.length = actual.length
  mapped : expected.length < 2 ^ 61

def bitsSet (delta : UInt8) : Nat := (List.range 8).countP fun bit => delta.toNat.testBit bit

structure Seen where
  first : Bool := true
  firstOffset : UInt64 := 0
  lastOffset : UInt64 := 0
  popcount : UInt64 := 0

def Seen.byte (seen : Seen) (offset : Nat) (delta : UInt8) : Seen :=
  if delta = 0 then seen
  else {
    first := false
    firstOffset := if seen.first then UInt64.ofNat offset else seen.firstOffset
    lastOffset := UInt64.ofNat offset
    popcount := seen.popcount + UInt64.ofNat (bitsSet delta) }

def Seen.bytes (seen : Seen) (offset : Nat) : List (UInt8 × UInt8) → Seen
  | [] => seen
  | (expected, actual) :: rest =>
    (seen.byte offset (expected ^^^ actual)).bytes (offset + 1) rest

def kStored : UInt8 := 0

def windowOf (bytes : List UInt8) (windowOffset : UInt64) : List UInt8 :=
  let windowEnd := min bytes.length (windowOffset.toNat + kMaxWindowBytes)
  (bytes.drop windowOffset.toNat).take (windowEnd - windowOffset.toNat)

/-- The first and last byte that differ, how many bits do, and a window over the first of them. -/
def compareStored (c : Compared) : Option Difference :=
  if c.expected = c.actual then none
  else
    let seen := Seen.bytes {} 0 (c.expected.zip c.actual)
    let windowOffset := seen.firstOffset / kWordBytes * kWordBytes
    some {
      domain := kStored
      firstOffset := seen.firstOffset
      lastOffset := seen.lastOffset
      popcount := seen.popcount
      windowOffset := windowOffset
      expected := windowOf c.expected windowOffset
      actual := windowOf c.actual windowOffset }

theorem bitsSet_le (delta : UInt8) : bitsSet delta ≤ 8 := countP_le_length

theorem bitsSet_pos (delta : UInt8) (h : delta ≠ 0) : 0 < bitsSet delta := by
  rw [bitsSet, countP_pos_iff]
  have hne : delta.toNat ≠ 0 := fun hz => h (UInt8.toNat_inj.mp hz)
  obtain ⟨bit, hbit⟩ := Nat.exists_testBit_of_ne_zero hne
  have hlt := delta.toNat_lt
  refine ⟨bit, ?_, hbit⟩
  rw [mem_range]
  apply Nat.lt_of_not_le
  intro hle
  rw [Nat.testBit_lt_two_pow (Nat.lt_of_lt_of_le hlt (Nat.pow_le_pow_right (by decide) hle))] at hbit
  cases hbit

/-- Nothing that differs, or the first and last difference and how many bits differ. -/
def SeenOf (pairs : List (UInt8 × UInt8)) (k : Nat) (seen : Seen) : Prop :=
  (seen.first = true ∧ seen.popcount = 0 ∧ ∀ i < k, ∀ p, pairs[i]? = some p → p.1 = p.2) ∨
  (seen.first = false ∧ ∃ i j bits p q, i ≤ j ∧ j < k ∧
    pairs[i]? = some p ∧ p.1 ≠ p.2 ∧ pairs[j]? = some q ∧ q.1 ≠ q.2 ∧
    seen.firstOffset = UInt64.ofNat i ∧ seen.lastOffset = UInt64.ofNat j ∧
    seen.popcount = UInt64.ofNat bits ∧ 1 ≤ bits ∧ bits ≤ 8 * k)

theorem byte_seenOf (pairs : List (UInt8 × UInt8)) (k : Nat) (seen : Seen) (p : UInt8 × UInt8)
    (hp : pairs[k]? = some p) (hseen : SeenOf pairs k seen) :
    SeenOf pairs (k + 1) (seen.byte k (p.1 ^^^ p.2)) := by
  by_cases hsame : p.1 = p.2
  · rw [Seen.byte, if_pos (UInt8.xor_eq_zero_iff.mpr hsame)]
    rcases hseen with ⟨hfirst, hcount, hall⟩ | ⟨hfirst, i, j, bits, q, r, hij, hjk, hrest⟩
    · refine .inl ⟨hfirst, hcount, ?_⟩
      intro i hi q hq
      by_cases hik : i = k
      · rw [hik, hp] at hq
        cases hq
        exact hsame
      · exact hall i (by omega) q hq
    · obtain ⟨hi, hip, hj, hjq, hfo, hlo, hpc, hpos, hmax⟩ := hrest
      exact .inr ⟨hfirst, i, j, bits, q, r, hij, by omega, hi, hip, hj, hjq, hfo, hlo, hpc, hpos,
        by omega⟩
  · have hdelta : p.1 ^^^ p.2 ≠ 0 := fun h => hsame (UInt8.xor_eq_zero_iff.mp h)
    have hbits := bitsSet_pos _ hdelta
    have hbits8 := bitsSet_le (p.1 ^^^ p.2)
    rw [Seen.byte, if_neg hdelta]
    rcases hseen with ⟨hfirst, hcount, hall⟩ | ⟨hfirst, i, j, bits, q, r, hij, hjk, hrest⟩
    · refine .inr ⟨rfl, k, k, bitsSet (p.1 ^^^ p.2), p, p, Nat.le_refl k, Nat.lt_succ_self k, hp,
        hsame, hp, hsame, by simp only [hfirst, if_true], rfl, ?_, hbits, by omega⟩
      simp [hcount]
    · obtain ⟨hi, hip, hj, hjq, hfo, hlo, hpc, hpos, hmax⟩ := hrest
      refine .inr ⟨rfl, i, k, bits + bitsSet (p.1 ^^^ p.2), q, p, by omega, Nat.lt_succ_self k, hi,
        hip, hp, hsame, ?_, rfl, ?_, by omega, by omega⟩
      · simp [hfirst, hfo]
      · simp [hpc]

theorem bytes_seenOf (pairs rest : List (UInt8 × UInt8)) (k : Nat) (seen : Seen)
    (hrest : pairs.drop k = rest) (hk : k ≤ pairs.length) (hseen : SeenOf pairs k seen) :
    SeenOf pairs pairs.length (seen.bytes k rest) := by
  induction rest generalizing k seen with
  | nil =>
    have hlen := congrArg length hrest
    rw [length_drop, length_nil] at hlen
    have hend : k = pairs.length := by omega
    rw [← hend]
    exact hseen
  | cons p rest ih =>
    have hp : pairs[k]? = some p := by
      have h := congrArg (fun l => l[0]?) hrest
      simpa [getElem?_drop] using h
    have hlt : k < pairs.length := by
      rcases Nat.lt_or_ge k pairs.length with h | h
      · exact h
      · rw [getElem?_eq_none h] at hp
        cases hp
    have htail : pairs.drop (k + 1) = rest := by
      rw [← drop_drop, hrest]
      rfl
    obtain ⟨expected, actual⟩ := p
    exact ih (k + 1) _ htail hlt (byte_seenOf pairs k seen (expected, actual) hp hseen)

theorem windowOf_length (bytes : List UInt8) (windowOffset : UInt64) :
    (windowOf bytes windowOffset).length =
      min bytes.length (windowOffset.toNat + kMaxWindowBytes) - windowOffset.toNat := by
  rw [windowOf, length_take, length_drop]
  omega

theorem windowOf_get (bytes : List UInt8) (windowOffset : UInt64) (k : Nat)
    (hk : k < (windowOf bytes windowOffset).length) :
    (windowOf bytes windowOffset)[k]? = bytes[windowOffset.toNat + k]? := by
  rw [windowOf_length] at hk
  rw [windowOf, getElem?_take_of_lt hk, getElem?_drop]

theorem zip_all_same (a b : List UInt8) (hlen : a.length = b.length)
    (h : ∀ i < (a.zip b).length, ∀ p, (a.zip b)[i]? = some p → p.1 = p.2) : a = b := by
  apply ext_getElem hlen
  intro i ha hb
  have hi : i < (a.zip b).length := by
    rw [length_zip]
    omega
  exact h i hi (a[i], b[i]) (by rw [getElem?_eq_getElem hi, getElem_zip])

theorem differsAt_of_get (d : Difference) (expected actual : List UInt8) (offset : UInt64)
    (hexpected : d.expected = windowOf expected d.windowOffset)
    (hactual : d.actual = windowOf actual d.windowOffset)
    (hlen : expected.length = actual.length) (hin : inWindow d offset = true)
    (hne : expected[offset.toNat]? ≠ actual[offset.toNat]?) : differsAt d offset = true := by
  have hbounds := hin
  simp only [inWindow, Bool.and_eq_true, decide_eq_true_eq] at hbounds
  obtain ⟨hlow, hhigh⟩ := hbounds
  have hsub : (offset - d.windowOffset).toNat = offset.toNat - d.windowOffset.toNat :=
    UInt64.toNat_sub_of_le _ _ hlow
  have hle : d.windowOffset.toNat ≤ offset.toNat := hlow
  have hsame : d.actual.length = d.expected.length := by
    rw [hexpected, hactual, windowOf_length, windowOf_length, hlen]
  have hget : d.windowOffset.toNat + (offset.toNat - d.windowOffset.toNat) = offset.toNat := by
    omega
  rw [hsub] at hhigh
  rw [differsAt, hin, Bool.true_and, hsub, bne_iff_ne]
  have he : d.expected[offset.toNat - d.windowOffset.toNat]? = expected[offset.toNat]? := by
    rw [hexpected] at hhigh ⊢
    rw [windowOf_get _ _ _ hhigh, hget]
  have ha : d.actual[offset.toNat - d.windowOffset.toNat]? = actual[offset.toNat]? := by
    rw [← hsame, hactual] at hhigh
    rw [hactual, windowOf_get _ _ _ hhigh, hget]
  rw [he, ha]
  exact hne

theorem compareStored_valid (c : Compared) (d : Difference) (h : compareStored c = some d) :
    d.isValid = true := by
  rw [compareStored] at h
  by_cases hsame : c.expected = c.actual
  · rw [if_pos hsame] at h
    cases h
  rw [if_neg hsame] at h
  cases h
  have hseen := bytes_seenOf (c.expected.zip c.actual) (c.expected.zip c.actual) 0 {} rfl
    (Nat.zero_le _) (.inl ⟨rfl, rfl, fun i hi => absurd hi (Nat.not_lt_zero i)⟩)
  have hmapped := c.mapped
  have hzip : (c.expected.zip c.actual).length = c.expected.length := by
    simp [← c.sizes]
  generalize Seen.bytes {} 0 (c.expected.zip c.actual) = seen at *
  rcases hseen with ⟨-, -, hall⟩ | ⟨-, i, j, bits, p, q, hij, hj, hip, hpne, hjq, hqne, hfo, hlo,
    hpc, hpos, hmax⟩
  · exact absurd (zip_all_same _ _ c.sizes hall) hsame
  rw [hzip] at hj hmax
  have hi64 : (UInt64.ofNat i).toNat = i := UInt64.toNat_ofNat_of_lt' (by simp only [UInt64.size]; omega)
  have hj64 : (UInt64.ofNat j).toNat = j := UInt64.toNat_ofNat_of_lt' (by simp only [UInt64.size]; omega)
  have hbits64 : (UInt64.ofNat bits).toNat = bits :=
    UInt64.toNat_ofNat_of_lt' (by simp only [UInt64.size]; omega)
  have hoffset : (UInt64.ofNat i / kWordBytes * kWordBytes).toNat = i / 8 * 8 := by
    rw [UInt64.toNat_mul, UInt64.toNat_div, hi64]
    show i / 8 * 8 % 2 ^ 64 = i / 8 * 8
    omega
  have hwindow := windowOf_length c.expected (UInt64.ofNat i / kWordBytes * kWordBytes)
  rw [hoffset, kMaxWindowBytes] at hwindow
  have hdiffers : ∀ (m : Nat) (r : UInt8 × UInt8), (c.expected.zip c.actual)[m]? = some r →
      r.1 ≠ r.2 → c.expected[m]? ≠ c.actual[m]? := by
    intro m r hr hne
    obtain ⟨he, ha⟩ := getElem?_zip_eq_some.mp hr
    rw [he, ha]
    simpa using hne
  simp only [Difference.isValid, hfo, hlo, hpc, Bool.and_eq_true, decide_eq_true_eq, beq_iff_eq]
  refine ⟨⟨⟨⟨⟨⟨⟨⟨by decide, ?_⟩, ?_⟩, trivial⟩, ?_⟩, ?_⟩, ?_⟩, ?_⟩, ?_⟩
  · rw [UInt64.le_iff_toNat_le, hbits64]
    exact hpos
  · rw [UInt64.le_iff_toNat_le, hi64, hj64]
    exact hij
  · rw [windowOf_length, windowOf_length, c.sizes]
  · rw [Bool.not_eq_true', isEmpty_eq_false_iff, ← length_pos_iff, hwindow]
    omega
  · rw [hwindow, kMaxWindowBytes]
    omega
  · apply differsAt_of_get _ c.expected c.actual _ rfl rfl c.sizes
    · simp only [inWindow, Bool.and_eq_true, decide_eq_true_eq]
      have hle : UInt64.ofNat i / kWordBytes * kWordBytes ≤ UInt64.ofNat i := by
        rw [UInt64.le_iff_toNat_le, hoffset, hi64]
        omega
      refine ⟨hle, ?_⟩
      rw [UInt64.toNat_sub_of_le _ _ hle, hoffset, hi64, hwindow]
      omega
    · rw [hi64]
      exact hdiffers i p hip hpne
  · rw [Bool.or_eq_true, Bool.not_eq_true']
    cases hin : inWindow _ (UInt64.ofNat j) with
    | false => exact .inl rfl
    | true =>
      refine .inr (differsAt_of_get _ c.expected c.actual _ rfl rfl c.sizes hin ?_)
      rw [hj64]
      exact hdiffers j q hjq hqne

end LoadForge.Verification.Integrity
