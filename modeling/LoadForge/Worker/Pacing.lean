import LoadForge.Worker.VerifiedRun

namespace LoadForge.Worker

/-- The busy time as the code computes it, in 64 bits. -/
def busyWord (d : SetDuty) : UInt64 :=
  let period := UInt64.ofNat d.periodNs.toNat
  period / 1000 * d.busyPermille.toUInt64 + period % 1000 * d.busyPermille.toUInt64 / 1000

theorem thousandths_eq (period permille : Nat) :
    period / 1000 * permille + period % 1000 * permille / 1000 = period * permille / 1000 := by
  have hsplit : period * permille =
      1000 * (period / 1000 * permille) + period % 1000 * permille := by
    rw [← Nat.mul_assoc, ← Nat.add_mul, Nat.div_add_mod]
  rw [hsplit, Nat.mul_add_div (by omega)]

section Share

variable (d : SetDuty) (period : Nat) (hd : d.periodNs = period)
include hd

theorem busyWord_toNat (hpermille : d.busyPermille.toNat ≤ 1000) (hperiod : period < 2 ^ 63) :
    (busyWord d).toNat = period * d.busyPermille.toNat / 1000 := by
  have hword : (UInt64.ofNat period).toNat = period :=
    UInt64.toNat_ofNat_of_lt' (by simp [UInt64.size]; omega)
  have hwhole := Nat.mul_le_mul_left (period / 1000) hpermille
  have hrest := Nat.mul_le_mul_left (period % 1000) hpermille
  rw [← thousandths_eq]
  simp only [busyWord, hd, Int.toNat_natCast, UInt64.toNat_add, UInt64.toNat_mul,
    UInt64.toNat_div, UInt64.toNat_mod, hword, UInt16.toNat_toUInt64, UInt64.reduceToNat]
  rw [Nat.mod_eq_of_lt (a := period / 1000 * _) (by omega),
    Nat.mod_eq_of_lt (a := period % 1000 * _) (by omega), Nat.mod_eq_of_lt (by omega)]

theorem busyNs_eq : busyNs d = ((period * d.busyPermille.toNat / 1000 : Nat) : Int) := by
  rw [← thousandths_eq, busyNs, hd]
  rfl

end Share

/-- How far an instant is into its period. -/
def DutyClock.into (clock : DutyClock) (t : Int) : Int :=
  (t - clock.epochNs) % clock.duty.periodNs

/-- What the clock's answer at an instant is: the part of the period it is in, and the time to the
next change, or to the period's end where there is none. -/
structure DutyClock.Exact (clock : DutyClock) (t : Int) : Prop where
  busy : (clock.position t).busy = decide (clock.into t < busyNs clock.duty)
  ahead : 0 < (clock.position t).remainingNs
  steady : ∀ u, t ≤ u → u < t + (clock.position t).remainingNs →
    (clock.position u).busy = (clock.position t).busy
  turns : 0 < busyNs clock.duty → 0 < idleNs clock.duty →
    (clock.position (t + (clock.position t).remainingNs)).busy = !(clock.position t).busy
  ends : busyNs clock.duty = 0 ∨ idleNs clock.duty = 0 →
    (clock.position t).remainingNs = clock.duty.periodNs - clock.into t

namespace DutyClock

variable (clock : DutyClock) (t k : Int)

theorem position_eq (ht : clock.epochNs ≤ t) :
    clock.position t = ⟨clock.into t < busyNs clock.duty,
      if clock.into t < busyNs clock.duty then busyNs clock.duty - clock.into t
      else clock.duty.periodNs - clock.into t⟩ := by
  simp only [position, into, max_eq_left (show (0 : Int) ≤ t - clock.epochNs by omega)]
  rfl

theorem into_end (h : clock.into t + k = clock.duty.periodNs) : clock.into (t + k) = 0 := by
  rw [into, add_sub_right_comm, ← Int.emod_add_emod]
  exact (congrArg (· % clock.duty.periodNs) h).trans Int.emod_self

variable (hpos : 0 < clock.duty.periodNs)
include hpos

theorem into_add (hk : 0 ≤ k) (h : clock.into t + k < clock.duty.periodNs) :
    clock.into (t + k) = clock.into t + k := by
  have hnonneg : 0 ≤ clock.into t := Int.emod_nonneg _ (Int.ne_of_gt hpos)
  rw [into, add_sub_right_comm, ← Int.emod_add_emod]
  exact Int.emod_eq_of_lt (Int.add_nonneg hnonneg hk) h

theorem exact_at (ht : clock.epochNs ≤ t) (hle : busyNs clock.duty ≤ clock.duty.periodNs) :
    clock.Exact t := by
  have hlow : 0 ≤ clock.into t := Int.emod_nonneg _ (Int.ne_of_gt hpos)
  have hhigh : clock.into t < clock.duty.periodNs := Int.emod_lt_of_pos _ hpos
  have hidle : idleNs clock.duty = clock.duty.periodNs - busyNs clock.duty := rfl
  have hat := clock.position_eq t ht
  have hbusy := congrArg Position.busy hat
  have hremaining := congrArg Position.remainingNs hat
  simp only at hbusy hremaining
  refine ⟨hbusy, ?_, ?_, ?_, ?_⟩
  · rw [hremaining]
    split_ifs <;> omega
  · intro u htu hu
    obtain ⟨k, rfl⟩ : ∃ k, u = t + k := ⟨u - t, by omega⟩
    rw [hremaining] at hu
    rw [hbusy, clock.position_eq _ (by omega),
      clock.into_add t k hpos (by omega) (by split_ifs at hu <;> omega), decide_eq_decide]
    split_ifs at hu <;> omega
  · intro hsome hrest
    rw [hbusy, hremaining]
    split_ifs with hin
    · rw [clock.position_eq _ (by omega), clock.into_add t _ hpos (by omega) (by omega)]
      simp [hin]
    · rw [clock.position_eq _ (by omega), clock.into_end t _ (by omega)]
      simp [hin, hsome]
  · intro hempty
    rw [hremaining]
    split_ifs <;> omega

end DutyClock

/-- A wave is busy for its share of each period, rounded down and computed without a wrap, and at
every instant since it was set the clock's answer is exact. -/
theorem duty_clock_divides_time (clock : DutyClock)
    (hvalid : isValid (.setDuty clock.duty) = true) (hperiod : clock.duty.periodNs < 2 ^ 63) :
    busyNs clock.duty = clock.duty.periodNs * clock.duty.busyPermille.toNat / 1000 ∧
      ((busyWord clock.duty).toNat : Int) = busyNs clock.duty ∧ busyNs clock.duty < 2 ^ 63 ∧
      busyNs clock.duty + idleNs clock.duty = clock.duty.periodNs ∧
      ∀ t, clock.epochNs ≤ t → clock.Exact t := by
  simp only [isValid, Bool.and_eq_true, decide_eq_true_eq, UInt16.le_iff_toNat_le,
    UInt16.reduceToNat] at hvalid
  obtain ⟨⟨-, hpermille⟩, hpos⟩ := hvalid
  obtain ⟨period, hd⟩ := Int.eq_ofNat_of_zero_le (Int.le_of_lt hpos)
  have hbusy := busyNs_eq clock.duty period hd
  have hmost := Nat.mul_le_mul_left period hpermille
  have hidle : idleNs clock.duty = clock.duty.periodNs - busyNs clock.duty := rfl
  refine ⟨?_, ?_, by omega, by omega, fun t ht => clock.exact_at t hpos ht (by omega)⟩
  · rw [hbusy, hd]
    rfl
  · rw [busyWord_toNat _ period hd hpermille (by omega), hbusy]

theorem third_of_a_period_is_busy :
    busyNs ⟨500, 3⟩ = 1 ∧ (DutyClock.position ⟨⟨500, 3⟩, 5⟩ (7 + 1)).busy = true := by
  have h := duty_clock_divides_time ⟨⟨500, 3⟩, 5⟩ (by decide) (by decide)
  exact ⟨h.1, (h.2.2.2.2 7 (by decide)).turns (by decide) (by decide)⟩

/-- What `nextSliceUnits` divides, as the code does, in 128 bits. -/
def wantedWide (lastUnits : UInt64) (tookNs targetNs : Int) : BitVec 128 :=
  BitVec.ofNat 128 lastUnits.toNat * BitVec.ofNat 128 (max targetNs 1).toNat /
    BitVec.ofNat 128 tookNs.toNat

theorem wantedWide_toNat (last : UInt64) (took target : Int) (htook : took < 2 ^ 63)
    (htarget : target < 2 ^ 63) :
    (wantedWide last took target).toNat = last.toNat * (max target 1).toNat / took.toNat := by
  have hlast := last.toNat_lt
  have hproduct : last.toNat * (max target 1).toNat ≤ (2 ^ 64 - 1) * (2 ^ 63 - 1) :=
    Nat.mul_le_mul (by omega) (by omega)
  simp only [wantedWide, BitVec.toNat_udiv, BitVec.toNat_mul, BitVec.toNat_ofNat]
  rw [Nat.mod_eq_of_lt (show last.toNat < 2 ^ 128 by omega),
    Nat.mod_eq_of_lt (show (max target 1).toNat < 2 ^ 128 by omega),
    Nat.mod_eq_of_lt (show took.toNat < 2 ^ 128 by omega), Nat.mod_eq_of_lt (by omega)]

theorem nextSliceUnits_toNat (last : UInt64) (took target : Int) :
    (nextSliceUnits last took target).toNat =
      if took ≤ 0 then min (2 * last.toNat) (2 ^ 20)
      else min (max (last.toNat * (max target 1).toNat / took.toNat) 1)
        (min (2 * last.toNat) (2 ^ 20)) := by
  have hdoubled : min (min last.toNat (kMaxSliceUnits / 2) * 2) kMaxSliceUnits =
      min (2 * last.toNat) (2 ^ 20) := by
    have hmax : kMaxSliceUnits = 2 ^ 20 := rfl
    omega
  simp only [nextSliceUnits, hdoubled]
  split_ifs
  · exact UInt64.toNat_ofNat_of_lt' (by simp [UInt64.size])
  · exact UInt64.toNat_ofNat_of_lt' (by simp [UInt64.size])

theorem nextSliceUnits_bounds (last : UInt64) (took target : Int) (hlast : 1 ≤ last.toNat) :
    1 ≤ (nextSliceUnits last took target).toNat ∧
      (nextSliceUnits last took target).toNat ≤ min (2 * last.toNat) (2 ^ 20) := by
  rw [nextSliceUnits_toNat]
  split_ifs <;> omega

/-- The size after some slices, each with the time it took and its target. -/
def sizeAfter : UInt64 → List (Int × Int) → UInt64
  | units, [] => units
  | units, (took, target) :: slices => sizeAfter (nextSliceUnits units took target) slices

theorem sizeAfter_bounds (slices : List (Int × Int)) (units : UInt64)
    (hu : 1 ≤ units.toNat ∧ units.toNat ≤ 2 ^ 20) :
    1 ≤ (sizeAfter units slices).toNat ∧ (sizeAfter units slices).toNat ≤ 2 ^ 20 := by
  induction slices generalizing units with
  | nil => exact hu
  | cons slice slices ih =>
    have h := nextSliceUnits_bounds units slice.1 slice.2 hu.1
    exact ih _ (by omega)

/-- The next size when every unit takes `cost`. -/
def steadyUnits (cost target : Nat) (units : UInt64) : UInt64 :=
  nextSliceUnits units (cost * units.toNat : Nat) target

theorem iterate_steadyUnits (cost target n : Nat) (hc : 0 < cost) (ht : 0 < target) :
    ((steadyUnits cost target)^[n] 1).toNat =
      min (max (target / cost) 1) (min (2 ^ n) (2 ^ 20)) := by
  induction n with
  | zero => simp
  | succ n ih =>
    rw [Function.iterate_succ_apply', steadyUnits]
    generalize (steadyUnits cost target)^[n] 1 = units at ih ⊢
    have hpow := Nat.two_pow_pos n
    have hunits : 0 < units.toNat := by omega
    have hcost := Nat.mul_pos hc hunits
    have htarget : (max (target : Int) 1).toNat = target := by omega
    rw [nextSliceUnits_toNat, if_neg (by omega), Int.toNat_natCast, htarget, Nat.mul_comm cost,
      Nat.mul_div_mul_left _ _ hunits, ih, Nat.pow_succ]
    omega

/-- A slice's size stays in its bounds and is the exact proportion; at a steady cost it is what
the target asks for after twenty-one slices at most. -/
theorem slice_sizes_stay_bounded_and_settle :
    (∀ (slices : List (Int × Int)) (units : UInt64), sizeAfter 1 slices = units →
      1 ≤ units.toNat ∧ units.toNat ≤ 2 ^ 20 ∧
      ∀ took target : Int,
        (nextSliceUnits units took target).toNat ≤ 2 * units.toNat ∧
        (0 < took → (nextSliceUnits units took target).toNat =
          min (max (units.toNat * (max target 1).toNat / took.toNat) 1)
            (min (2 * units.toNat) (2 ^ 20))) ∧
        (took < 2 ^ 63 → target < 2 ^ 63 → (wantedWide units took target).toNat =
          units.toNat * (max target 1).toNat / took.toNat)) ∧
    ∀ cost target n : Nat, 0 < cost → 0 < target → 21 ≤ n →
      ((steadyUnits cost target)^[n] 1).toNat = min (max (target / cost) 1) (2 ^ 20) := by
  refine ⟨?_, ?_⟩
  · intro slices units hunits
    obtain ⟨hlow, hhigh⟩ := sizeAfter_bounds slices 1 (by decide)
    rw [hunits] at hlow hhigh
    refine ⟨hlow, hhigh, ?_⟩
    intro took target
    have hnext := nextSliceUnits_bounds units took target hlow
    refine ⟨by omega, ?_, wantedWide_toNat units took target⟩
    intro hpos
    rw [nextSliceUnits_toNat, if_neg (by omega)]
  · intro cost target n hc ht hn
    have hpow : 2 ^ 20 ≤ 2 ^ n := Nat.pow_le_pow_right (by omega) (by omega)
    rw [iterate_steadyUnits cost target n hc ht, Nat.min_eq_right hpow]

end LoadForge.Worker
