import LoadForge.Verification.Layout

namespace LoadForge.Verification.Integrity

open Framework (hasSingleBit hasSingleBit_iff)

/-- The least multiple of `line` that is no less than `n`. -/
def wholeLines (line n : Nat) : Nat := (n + line - 1) / line * line

theorem wholeLines_bounds {line : Nat} (hline : 0 < line) (n : Nat) :
    n ≤ wholeLines line n ∧ wholeLines line n ≤ n + line - 1 ∧ line ∣ wholeLines line n := by
  have hdiv := Nat.div_add_mod (n + line - 1) line
  have hmod := Nat.mod_lt (n + line - 1) hline
  rw [Nat.mul_comm] at hdiv
  unfold wholeLines
  exact ⟨by omega, by omega, Nat.dvd_mul_left _ _⟩

theorem and_not_pred {line : UInt64} {k : Nat} (hline : line.toNat = 2 ^ k) (x : UInt64) :
    (x &&& ~~~(line - 1)).toNat = x.toNat / line.toNat * line.toNat := by
  have hpos := Nat.two_pow_pos k
  have hlt := line.toNat_lt
  have hpred : (line - 1).toNat = 2 ^ k - 1 := by
    rw [UInt64.toNat_sub_of_le line 1 (by rw [UInt64.le_iff_toNat_le]; simp; omega), hline]
    rfl
  have hmask : (~~~(line - 1)).toNat = 2 ^ 64 - (2 ^ k - 1 + 1) := by
    rw [UInt64.toNat_not, hpred]
    simp only [UInt64.size]
    omega
  rw [UInt64.toNat_and, hmask, hline]
  apply Nat.eq_of_testBit_eq
  intro i
  rw [Nat.testBit_and, Nat.testBit_two_pow_sub_succ (by omega), Nat.testBit_two_pow_sub_one,
    Nat.testBit_mul_two_pow, Nat.testBit_div_two_pow]
  by_cases hi : k ≤ i
  · have hback : i - k + k = i := by omega
    by_cases h64 : i < 64
    · simp [hi, h64, hback, Nat.not_lt.mpr hi]
    · have hbit : x.toNat.testBit i = false :=
        Nat.testBit_lt_two_pow (Nat.lt_of_lt_of_le x.toNat_lt
          (Nat.pow_le_pow_right (by decide) (by omega)))
      simp [hback, hbit]
  · simp [hi, Nat.not_le.mp hi]

/-- The size is `n`, and known to be, exactly when every step on the way to it `fits`. -/
def Checked.Tracks (c : Checked) (n : Nat) (fits : Prop) : Prop :=
  (c.overflowed = false ↔ fits) ∧ (fits → c.value.toNat = n)

section Tracks

variable {a b : Checked} {n m : Nat} {f g : Prop}

theorem Checked.tracks (value : UInt64) : (⟨value, false⟩ : Checked).Tracks value.toNat True :=
  ⟨by simp, fun _ => rfl⟩

theorem Checked.Tracks.step (ha : a.Tracks n f) (hb : b.Tracks m g) (op : Nat → Nat → Nat)
    {value : UInt64} (hvalue : value.toNat = op a.value.toNat b.value.toNat % 2 ^ 64) :
    Tracks ⟨value, decide (2 ^ 64 ≤ op a.value.toNat b.value.toNat) || a.overflowed ||
      b.overflowed⟩ (op n m) (f ∧ g ∧ op n m < 2 ^ 64) := by
  simp only [Tracks, Bool.or_eq_false_iff, decide_eq_false_iff_not, Nat.not_le, ha.1, hb.1]
  constructor
  · constructor
    · intro h
      obtain ⟨⟨hfits, hf⟩, hg⟩ := h
      rw [ha.2 hf, hb.2 hg] at hfits
      exact ⟨hf, hg, hfits⟩
    · intro h
      obtain ⟨hf, hg, hfits⟩ := h
      rw [ha.2 hf, hb.2 hg]
      exact ⟨⟨hfits, hf⟩, hg⟩
  · intro h
    obtain ⟨hf, hg, hfits⟩ := h
    rw [hvalue, ha.2 hf, hb.2 hg, Nat.mod_eq_of_lt hfits]

theorem Checked.Tracks.add (ha : a.Tracks n f) (hb : b.Tracks m g) :
    (a.add b).Tracks (n + m) (f ∧ g ∧ n + m < 2 ^ 64) :=
  ha.step hb (· + ·) (UInt64.toNat_add a.value b.value)

theorem Checked.Tracks.multiply (ha : a.Tracks n f) (hb : b.Tracks m g) :
    (a.multiply b).Tracks (n * m) (f ∧ g ∧ n * m < 2 ^ 64) :=
  ha.step hb (· * ·) (UInt64.toNat_mul a.value b.value)

theorem Checked.Tracks.roundUp (ha : a.Tracks n f) {line : UInt64} {k : Nat}
    (hline : line.toNat = 2 ^ k) :
    (a.roundUp line).Tracks (wholeLines line.toNat n)
      (f ∧ n + (line.toNat - 1) < 2 ^ 64) := by
  have hpos := Nat.two_pow_pos k
  have hpred : (line - 1).toNat = line.toNat - 1 :=
    UInt64.toNat_sub_of_le line 1 (by rw [UInt64.le_iff_toNat_le]; simp; omega)
  have hsum := ha.add (Checked.tracks (line - 1))
  rw [hpred] at hsum
  simp only [true_and] at hsum
  refine ⟨hsum.1, ?_⟩
  intro hfits
  rw [Checked.roundUp, and_not_pred hline, hsum.2 hfits, wholeLines, Nat.add_sub_assoc (by omega)]

end Tracks

/-- The bytes of a plan's layout, with the line of slack, in unbounded integers. -/
def totalBytes (plan : PlanSizes) (threads : UInt64) (line : Nat) : Nat :=
  wholeLines line plan.inputBytes.toNat * plan.units.toNat +
    wholeLines line plan.outputBytes.toNat * plan.units.toNat +
    wholeLines line plan.inputBytes.toNat +
    wholeLines line (plan.scratchBytes.toNat * threads.toNat) + line

/-- What plan and line size a layout can be made for. -/
def Plannable (plan : PlanSizes) (threads : UInt64) (lineBytes : UInt32) : Prop :=
  (8 ≤ lineBytes.toNat ∧ ∃ k, lineBytes.toNat = 2 ^ k) ∧
    (plan.units ≠ 0 ∧ plan.inputBytes ≠ 0 ∧ plan.outputBytes ≠ 0) ∧
    totalBytes plan threads lineBytes.toNat < 2 ^ 64

/-- What the runner keeps in its mapping, in this order. -/
inductive Zone
  | input | output | regenerated | scratch
  deriving DecidableEq

def Zone.rank : Zone → Nat
  | .input => 0
  | .output => 1
  | .regenerated => 2
  | .scratch => 3

namespace PlannedLayout

variable (l : PlannedLayout)

/-- Where a zone starts, how many slots it has, how far apart they are and what each holds. -/
def first : Zone → UInt64
  | .input => 0
  | .output => l.outputs
  | .regenerated => l.regenerated
  | .scratch => l.scratch

def slots : Zone → UInt64
  | .input => l.units
  | .output => l.units
  | _ => 1

def stride : Zone → UInt64
  | .output => l.outputStride
  | .scratch => l.bytes - l.scratch
  | _ => l.inputStride

def held : Zone → UInt64
  | .output => l.outputBytes
  | .scratch => l.scratchBytes
  | _ => l.inputBytes

/-- Zones of whole lines, one after the other, in a mapping with a line of slack. -/
structure Laid : Prop where
  holds : ∀ z, (l.held z).toNat ≤ (l.stride z).toNat
  whole : ∀ z, l.lineBytes.toNat ∣ (l.stride z).toNat
  outputs : l.outputs.toNat = l.inputStride.toNat * l.units.toNat
  regenerated : l.regenerated.toNat = l.outputs.toNat + l.outputStride.toNat * l.units.toNat
  scratch : l.scratch.toNat = l.regenerated.toNat + l.inputStride.toNat
  bytes : l.bytes.toNat = l.scratch.toNat + (l.stride .scratch).toNat
  mapping : l.mappingBytes.toNat = l.bytes.toNat + l.lineBytes.toNat

/-- The zones have the slots and the bytes that the plan asks for. -/
structure Sized (plan : PlanSizes) (threads : UInt64) : Prop where
  units : l.units = plan.units
  input : l.inputBytes = plan.inputBytes
  output : l.outputBytes = plan.outputBytes
  scratch : l.scratchBytes.toNat = plan.scratchBytes.toNat * threads.toNat

end PlannedLayout

theorem refused_iff {α : Type} {p : Prop} {q : α → Prop} {e : RunnerError} (hp : ¬p) :
    ((∃ a, (Except.error e : Except RunnerError α) = .ok a) ↔ p) ∧
      ∀ a, (Except.error e : Except RunnerError α) = .ok a → q a := by
  simp [hp]

theorem planLayout_spec (plan : PlanSizes) (threads : UInt64) (lineBytes : UInt32) :
    ((∃ l, planLayout plan threads lineBytes = .ok l) ↔ Plannable plan threads lineBytes) ∧
    ∀ l, planLayout plan threads lineBytes = .ok l →
      l.Laid ∧ l.lineBytes.toNat = lineBytes.toNat ∧ l.Sized plan threads := by
  have hfew : lineBytes < 8 ↔ ¬8 ≤ lineBytes.toNat := by
    rw [UInt32.lt_iff_toNat_lt, Nat.not_le]
    rfl
  simp only [planLayout, Bool.or_eq_true, decide_eq_true_eq, Bool.not_eq_true',
    ← Bool.not_eq_true, hfew, Plannable, ne_eq]
  rw [show (∃ k, lineBytes.toNat = 2 ^ k) ↔ _ from (hasSingleBit_iff lineBytes.toNat).symm]
  by_cases hl : 8 ≤ lineBytes.toNat ∧ hasSingleBit lineBytes.toNat = true
  swap
  · rw [if_pos (not_and_or.mp hl)]
    exact refused_iff fun h => hl h.1
  by_cases hp : ¬plan.units = 0 ∧ ¬plan.inputBytes = 0 ∧ ¬plan.outputBytes = 0
  swap
  · rw [if_neg (by tauto), if_pos (by tauto)]
    exact refused_iff fun h => hp h.2.1
  rw [if_neg (by tauto), if_neg (by tauto)]
  obtain ⟨k, hk⟩ := (hasSingleBit_iff lineBytes.toNat).mp hl.2
  rw [← UInt32.toNat_toUInt64] at hk ⊢
  have hpos : 0 < lineBytes.toUInt64.toNat := hk ▸ Nat.two_pow_pos k
  have hunits : 0 < plan.units.toNat := Nat.pos_of_ne_zero fun h => hp.1 (UInt64.toNat_inj.mp h)
  -- Each size beside what it is in unbounded integers; the total is the largest of them.
  have hin := (Checked.tracks plan.inputBytes).roundUp hk
  have hout := (Checked.tracks plan.outputBytes).roundUp hk
  have hwork := (Checked.tracks plan.scratchBytes).multiply (Checked.tracks threads)
  have houtputs := hin.multiply (Checked.tracks plan.units)
  have hregen := houtputs.add (hout.multiply (Checked.tracks plan.units))
  have hscratch := hregen.add hin
  have hbytes := hscratch.add (hwork.roundUp hk)
  have hmapping := hbytes.add (Checked.tracks lineBytes.toUInt64)
  have win := wholeLines_bounds hpos plan.inputBytes.toNat
  have wout := wholeLines_bounds hpos plan.outputBytes.toNat
  have wwork := wholeLines_bounds hpos (plan.scratchBytes.toNat * threads.toNat)
  by_cases htotal : totalBytes plan threads lineBytes.toUInt64.toNat < 2 ^ 64
  swap
  · rw [if_pos (Bool.not_eq_false _ ▸ fun h => htotal (hmapping.1.mp h).2.2)]
    exact refused_iff fun h => htotal h.2.2
  have fits := hmapping.1.mpr (by
    have houts := Nat.le_mul_of_pos_right
      (wholeLines lineBytes.toUInt64.toNat plan.outputBytes.toNat) hunits
    rw [totalBytes] at htotal
    simp only [true_and]
    omega)
  rw [if_neg (by rw [fits]; decide)]
  obtain ⟨⟨⟨⟨fouts, fos, fr⟩, fi, fs⟩, fw, fb⟩, -, fm⟩ := hmapping.1.mp fits
  refine ⟨⟨fun _ => ⟨hl, hp, htotal⟩, fun _ => ⟨_, rfl⟩⟩, ?_⟩
  intro l h
  have vin := hin.2 fi
  have vout := hout.2 fos.1
  have vouts := houtputs.2 fouts
  have vregen := hregen.2 ⟨fouts, fos, fr⟩
  have vscratch := hscratch.2 ⟨⟨fouts, fos, fr⟩, fi, fs⟩
  have vbytes := hbytes.2 ⟨⟨⟨fouts, fos, fr⟩, fi, fs⟩, fw, fb⟩
  have vwork := hwork.2 fw.1
  have hspace : (l.bytes - l.scratch).toNat =
      wholeLines l.lineBytes.toNat l.scratchBytes.toNat := by
    cases h
    rw [UInt64.toNat_sub_of_le, vbytes, vscratch, vwork, Nat.add_sub_cancel_left]
    rw [UInt64.le_iff_toNat_le, vbytes, vscratch]
    exact Nat.le_add_right _ _
  refine ⟨⟨?_, ?_, ?_, ?_, ?_, ?_, ?_⟩, ?_⟩
  all_goals cases h
  · intro z
    cases z with
    | output => exact vout ▸ wout.1
    | scratch => exact hspace ▸ vwork ▸ wwork.1
    | _ => exact vin ▸ win.1
  · intro z
    cases z with
    | output => exact vout ▸ wout.2.2
    | scratch => exact hspace ▸ vwork ▸ wwork.2.2
    | _ => exact vin ▸ win.2.2
  · rw [vouts, vin]
  · rw [vregen, vouts, vout]
  · rw [vscratch, vregen, vin]
  · rw [PlannedLayout.stride, hspace, vbytes, vscratch, vwork]
  · rw [hmapping.2 (hmapping.1.mp fits), vbytes]
  · exact ⟨rfl, rfl, rfl, rfl, vwork⟩

/-- Where the runner starts in its mapping: at the first line boundary. -/
def slackOf (line start : UInt64) : UInt64 := ((start + line - 1) &&& ~~~(line - 1)) - start

theorem slackOf_spec {line : UInt64} {k : Nat} (hline : line.toNat = 2 ^ k) (start : UInt64) :
    (slackOf line start).toNat < line.toNat ∧
      line.toNat ∣ start.toNat + (slackOf line start).toNat := by
  have hpos : 0 < line.toNat := by rw [hline]; exact Nat.two_pow_pos k
  have hlt := line.toNat_lt
  have hstart := start.toNat_lt
  have hall : line.toNat ∣ 2 ^ 64 := by
    rw [hline] at hlt ⊢
    exact Nat.pow_dvd_pow 2 (Nat.le_of_lt ((Nat.pow_lt_pow_iff_right (by decide)).mp hlt))
  have hsum : (start + line - 1).toNat = (start.toNat + (line.toNat - 1)) % 2 ^ 64 := by
    have hone : (1 : UInt64).toNat = 1 := rfl
    rw [UInt64.toNat_sub, UInt64.toNat_add, hone]
    omega
  have hslack : (slackOf line start).toNat =
      (2 ^ 64 - start.toNat + (start + line - 1).toNat / line.toNat * line.toNat) % 2 ^ 64 := by
    rw [slackOf, UInt64.toNat_sub, and_not_pred hline]
  by_cases hwrap : start.toNat + (line.toNat - 1) < 2 ^ 64
  · obtain ⟨hle, hge, hdvd⟩ := wholeLines_bounds hpos start.toNat
    rw [Nat.mod_eq_of_lt hwrap, ← Nat.add_sub_assoc (by omega)] at hsum
    rw [hsum] at hslack
    change (slackOf line start).toNat = (2 ^ 64 - start.toNat + wholeLines line.toNat start.toNat) %
      2 ^ 64 at hslack
    have heq : start.toNat + (slackOf line start).toNat = wholeLines line.toNat start.toNat := by
      omega
    exact ⟨by omega, heq ▸ hdvd⟩
  · have hzero : (start + line - 1).toNat / line.toNat = 0 := Nat.div_eq_of_lt (by omega)
    rw [hzero, Nat.zero_mul, Nat.add_zero] at hslack
    have heq : start.toNat + (slackOf line start).toNat = 2 ^ 64 := by omega
    exact ⟨by omega, heq ▸ hall⟩

namespace PlannedLayout

/-- Where a slot of a zone lies from the start of the mapping. -/
def offset (l : PlannedLayout) (slack : UInt64) (z : Zone) (slot : UInt64) : UInt64 :=
  slack + l.first z + slot * l.stride z

variable {l : PlannedLayout} (h : l.Laid)

theorem slot_le {z : Zone} {slot : UInt64} (hslot : slot < l.slots z) :
    slot.toNat * (l.stride z).toNat + (l.stride z).toNat ≤
      (l.slots z).toNat * (l.stride z).toNat := by
  rw [← Nat.succ_mul]
  exact Nat.mul_le_mul_right _ hslot

include h

theorem Laid.order {z z' : Zone} (hlt : z.rank < z'.rank) :
    (l.first z).toNat + (l.slots z).toNat * (l.stride z).toNat ≤ (l.first z').toNat := by
  obtain ⟨-, -, houtputs, hregen, hscratch, -, -⟩ := h
  rw [Nat.mul_comm] at houtputs
  rw [Nat.mul_comm l.outputStride.toNat] at hregen
  cases z <;> cases z' <;> simp [Zone.rank] at hlt <;> simp [first, slots, stride] <;> omega

theorem Laid.ends (z : Zone) :
    (l.first z).toNat + (l.slots z).toNat * (l.stride z).toNat + l.lineBytes.toNat ≤
      l.mappingBytes.toNat := by
  have hlast : ∀ z : Zone, z = .scratch ∨ z.rank < Zone.scratch.rank := by
    intro z
    cases z <;> simp [Zone.rank]
  rw [h.mapping, h.bytes]
  rcases hlast z with rfl | hlt
  · simp [first, slots]
  · have horder := h.order hlt
    change _ ≤ l.scratch.toNat at horder
    omega

theorem Laid.starts (z : Zone) : l.lineBytes.toNat ∣ (l.first z).toNat := by
  have hin := h.whole .input
  have houtputs : l.lineBytes.toNat ∣ l.outputs.toNat := h.outputs ▸ Nat.dvd_mul_right_of_dvd hin _
  have hregen : l.lineBytes.toNat ∣ l.regenerated.toNat :=
    h.regenerated ▸ Nat.dvd_add houtputs (Nat.dvd_mul_right_of_dvd (h.whole .output) _)
  cases z with
  | input => exact Nat.dvd_zero _
  | output => exact houtputs
  | regenerated => exact hregen
  | scratch => exact h.scratch ▸ Nat.dvd_add hregen hin

theorem Laid.offset_toNat {slack : UInt64} (hslack : slack.toNat < l.lineBytes.toNat) {z : Zone}
    {slot : UInt64} (hslot : slot < l.slots z) :
    (l.offset slack z slot).toNat =
      slack.toNat + ((l.first z).toNat + slot.toNat * (l.stride z).toNat) := by
  have hmap := l.mappingBytes.toNat_lt
  have hends := h.ends z
  have hle := slot_le hslot
  rw [offset, UInt64.toNat_add, UInt64.toNat_add, UInt64.toNat_mul]
  omega

/-- The lines of a slot end before those of a slot of a later zone, or later of its zone. -/
theorem Laid.before {z z' : Zone} {slot slot' : UInt64} (hslot : slot < l.slots z)
    (hlt : z.rank < z'.rank ∨ z = z' ∧ slot < slot') :
    (l.first z).toNat + slot.toNat * (l.stride z).toNat + (l.stride z).toNat ≤
      (l.first z').toNat + slot'.toNat * (l.stride z').toNat := by
  rcases hlt with hlt | ⟨rfl, hlt⟩
  · have horder := h.order hlt
    have hle := slot_le hslot
    omega
  · have hle := Nat.mul_le_mul_right (l.stride z).toNat (show slot.toNat + 1 ≤ slot'.toNat from hlt)
    rw [Nat.succ_mul] at hle
    omega

section Lines

variable {start slack : UInt64} (hslack : slack.toNat < l.lineBytes.toNat)
  (hstart : l.lineBytes.toNat ∣ start.toNat + slack.toNat)
include hslack hstart

theorem Laid.aligned {z : Zone} {slot : UInt64} (hslot : slot < l.slots z) :
    l.lineBytes.toNat ∣ start.toNat + (l.offset slack z slot).toNat := by
  rw [h.offset_toNat hslack hslot, ← Nat.add_assoc]
  exact Nat.dvd_add hstart
    (Nat.dvd_add (h.starts z) (Nat.dvd_mul_left_of_dvd (h.whole z) slot.toNat))

theorem Laid.line_lt {z z' : Zone} {slot slot' : UInt64} (hslot : slot < l.slots z)
    (hslot' : slot' < l.slots z') (hlt : z.rank < z'.rank ∨ z = z' ∧ slot < slot') {i : Nat}
    (hi : i < (l.held z).toNat) (j : Nat) :
    (start.toNat + (l.offset slack z slot).toNat + i) / l.lineBytes.toNat <
      (start.toNat + (l.offset slack z' slot').toNat + j) / l.lineBytes.toNat := by
  have hbefore := h.before hslot hlt
  have hholds := h.holds z
  have ho := h.offset_toNat hslack hslot
  have ho' := h.offset_toNat hslack hslot'
  obtain ⟨n, hn⟩ := h.aligned hslack hstart hslot'
  have hfirst : (start.toNat + (l.offset slack z slot).toNat + i) / l.lineBytes.toNat < n :=
    Nat.div_lt_of_lt_mul (by omega)
  have hpos : 0 < l.lineBytes.toNat := by omega
  exact Nat.lt_of_lt_of_le hfirst ((Nat.le_div_iff_mul_le hpos).mpr (by rw [Nat.mul_comm]; omega))

end Lines

end PlannedLayout

theorem slots_ordered (z z' : Zone) (slot slot' : UInt64) (hne : (z, slot) ≠ (z', slot')) :
    (z.rank < z'.rank ∨ z = z' ∧ slot < slot') ∨ z'.rank < z.rank ∨ z' = z ∧ slot' < slot := by
  by_cases hz : z = z'
  · rw [hz] at hne
    have hslot : slot.toNat ≠ slot'.toNat := fun heq => hne (by rw [UInt64.toNat_inj.mp heq])
    rcases Nat.lt_or_gt_of_ne hslot with hlt | hlt
    · exact Or.inl (Or.inr ⟨hz, hlt⟩)
    · exact Or.inr (Or.inr ⟨hz.symm, hlt⟩)
  · cases z <;> cases z' <;> simp [Zone.rank] at hz ⊢

/-- When a layout is planned, and that wherever its mapping starts its slots, of the plan's sizes,
lie on lines of their own in it, the buffers of a unit among them. -/
theorem layout_never_overlaps (plan : PlanSizes) (threads : UInt64) (lineBytes : UInt32) :
    ((∃ l, planLayout plan threads lineBytes = .ok l) ↔ Plannable plan threads lineBytes) ∧
    ∀ l, planLayout plan threads lineBytes = .ok l → l.Sized plan threads ∧
      ∀ start slack : UInt64, slack = slackOf l.lineBytes start →
      (∀ z slot, slot < l.slots z →
        lineBytes.toNat ∣ start.toNat + (l.offset slack z slot).toNat ∧
          (l.offset slack z slot).toNat + (l.held z).toNat ≤ l.mappingBytes.toNat) ∧
      (∀ z slot z' slot', slot < l.slots z → slot' < l.slots z' → (z, slot) ≠ (z', slot') →
        ∀ i < (l.held z).toNat, ∀ j < (l.held z').toNat,
          (start.toNat + (l.offset slack z slot).toNat + i) / lineBytes.toNat ≠
            (start.toNat + (l.offset slack z' slot').toNat + j) / lineBytes.toNat) ∧
      ∀ (r : IntegrityRunner) (words : ControlWords), r.layout = l.toLayout → r.slack = slack →
        slotOf r words < l.slots .input ∧ slotOf r words < l.slots .output ∧
          inputOffset r words = l.offset slack .input (slotOf r words) ∧
          outputOffset r words = l.offset slack .output (slotOf r words) := by
  obtain ⟨hiff, hplanned⟩ := planLayout_spec plan threads lineBytes
  refine ⟨hiff, ?_⟩
  intro l hl
  obtain ⟨⟨-, k, hk⟩, ⟨hunits, -⟩, -⟩ := hiff.mp ⟨l, hl⟩
  obtain ⟨h, hline, hsized⟩ := hplanned l hl
  refine ⟨hsized, ?_⟩
  intro start slack hs
  rw [← hline] at hk ⊢
  obtain ⟨hslack, hstart⟩ := slackOf_spec hk start
  rw [← hs] at hslack hstart
  refine ⟨?_, ?_, ?_⟩
  · intro z slot hslot
    have hends := h.ends z
    have hholds := h.holds z
    have hle := PlannedLayout.slot_le hslot
    have ho := h.offset_toNat hslack hslot
    exact ⟨h.aligned hslack hstart hslot, by omega⟩
  · intro z slot z' slot' hslot hslot' hne i hi j hj
    rcases slots_ordered z z' slot slot' hne with hlt | hlt
    · exact Nat.ne_of_lt (h.line_lt hslack hstart hslot hslot' hlt hi j)
    · exact Nat.ne_of_gt (h.line_lt hslack hstart hslot' hslot hlt hj i)
  · intro r words hr hrs
    have hslot : slotOf r words < l.units := by
      rw [slotOf, hr, hsized.units, UInt64.lt_iff_toNat_lt, UInt64.toNat_mod]
      exact Nat.mod_lt _ (Nat.pos_of_ne_zero fun hz => hunits (UInt64.toNat_inj.mp hz))
    refine ⟨hslot, hslot, ?_, ?_⟩
    · simp [inputOffset, PlannedLayout.offset, PlannedLayout.first, PlannedLayout.stride, hr, hrs]
    · simp [outputOffset, PlannedLayout.offset, PlannedLayout.first, PlannedLayout.stride, hr, hrs]

end LoadForge.Verification.Integrity
