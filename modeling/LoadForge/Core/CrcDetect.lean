import LoadForge.Core.Crc32

namespace LoadForge.Core

def bitStep (v : BitVec 32) : BitVec 32 :=
  if v.getLsbD 0 then (v >>> 1) ^^^ kPolynomial.toBitVec else v >>> 1

theorem low_bit_iff (entry : UInt32) : (entry &&& 1 ≠ 0) ↔ entry.toBitVec.getLsbD 0 = true := by
  have h : (entry &&& 1).toBitVec = BitVec.setWidth 32 (BitVec.ofBool (entry.toBitVec.getLsbD 0)) := by
    rw [UInt32.toBitVec_and]
    exact BitVec.and_one_eq_setWidth_ofBool_getLsbD
  constructor
  · intro hne
    by_contra hbit
    rw [Bool.not_eq_true] at hbit
    rw [hbit] at h
    exact hne (UInt32.toBitVec_inj.mp h)
  · intro hbit hzero
    rw [hbit, hzero] at h
    exact absurd h (by decide)

theorem tableBit_toBitVec (entry : UInt32) : (tableBit entry).toBitVec = bitStep entry.toBitVec := by
  rw [tableBit, bitStep]
  by_cases hbit : entry.toBitVec.getLsbD 0 = true
  · rw [if_pos ((low_bit_iff entry).mpr hbit), if_pos hbit]
    rfl
  · rw [if_neg (mt (low_bit_iff entry).mp hbit), if_neg hbit]
    rfl

theorem bitStep_top (v : BitVec 32) : (bitStep v).getLsbD 31 = v.getLsbD 0 := by
  have hpoly : kPolynomial.toBitVec.getLsbD 31 = true := by decide
  have hout : (v >>> 1).getLsbD 31 = false := by
    rw [BitVec.getLsbD_ushiftRight]
    exact BitVec.getLsbD_of_ge v 32 (by omega)
  rw [bitStep]
  split_ifs with hbit
  · rw [BitVec.getLsbD_xor, hout, hpoly, hbit]
    rfl
  · rw [hout]
    simpa using hbit

/-- The polynomial's top bit says which way a step went, so no two words step to the same one. -/
theorem bitStep_injective : Function.Injective bitStep := by
  intro v w h
  have hlow : v.getLsbD 0 = w.getLsbD 0 := by
    rw [← bitStep_top v, ← bitStep_top w, h]
  have hrest : v >>> 1 = w >>> 1 := by
    rw [bitStep, bitStep, hlow] at h
    split_ifs at h with hbit
    · exact (BitVec.xor_left_inj _).mp h
    · exact h
  apply BitVec.eq_of_getLsbD_eq
  intro i hi
  cases i with
  | zero => exact hlow
  | succ i =>
    have hbit := congrArg (fun u => BitVec.getLsbD u i) hrest
    simpa [BitVec.getLsbD_ushiftRight, Nat.add_comm] using hbit

theorem bitStep_xor (v w : BitVec 32) : bitStep (v ^^^ w) = bitStep v ^^^ bitStep w := by
  have hcancel : ∀ a b p : BitVec 32, a ^^^ p ^^^ (b ^^^ p) = a ^^^ b := by
    intro a b p
    rw [BitVec.xor_comm b p, BitVec.xor_assoc, ← BitVec.xor_assoc p p b, BitVec.xor_self,
      BitVec.zero_xor]
  simp only [bitStep, BitVec.getLsbD_xor, BitVec.ushiftRight_xor_distrib]
  cases v.getLsbD 0 <;> cases w.getLsbD 0 <;> simp
  · ac_rfl
  · ac_rfl
  · exact (hcancel _ _ _).symm

theorem iterate_bitStep_xor (n : Nat) (v w : BitVec 32) :
    bitStep^[n] (v ^^^ w) = bitStep^[n] v ^^^ bitStep^[n] w := by
  induction n generalizing v w with
  | zero => rfl
  | succ n ih => simp [bitStep_xor, ih]

/-- A word whose low bits are clear only moves down. -/
theorem iterate_bitStep_clear (n : Nat) (v : BitVec 32) (hv : ∀ i, i < n → v.getLsbD i = false) :
    bitStep^[n] v = v >>> n := by
  induction n with
  | zero => simp
  | succ n ih =>
    have hbit : (v >>> n).getLsbD 0 = false := by
      rw [BitVec.getLsbD_ushiftRight]
      exact hv n (by omega)
    rw [Function.iterate_succ_apply', ih fun i hi => hv i (by omega), bitStep, hbit,
      BitVec.shiftRight_add]
    rfl

theorem low_byte_bit (i : Nat) : (0xFF#32).getLsbD i = decide (i < 8) := by
  have h : (0xFF : Nat) = 2 ^ 8 - 1 := rfl
  rw [BitVec.getLsbD_ofNat, h, Nat.testBit_two_pow_sub_one]
  by_cases hi : i < 8
  · simp [hi]
    omega
  · simp [hi]

theorem tableEntry_toBitVec (index : UInt32) :
    (tableEntry index).toBitVec = bitStep^[8] index.toBitVec := by
  simp only [tableEntry, List.range, List.range.loop, List.foldl_cons, List.foldl_nil,
    tableBit_toBitVec]
  rfl

theorem crcByte_toBitVec (running : UInt32) (byte : UInt8) :
    (crcByte running byte).toBitVec = bitStep^[8] (running ^^^ byte.toUInt32).toBitVec := by
  let v := (running ^^^ byte.toUInt32).toBitVec
  have hsplit : v = (v &&& 0xFF#32) ^^^ (v &&& ~~~0xFF#32) := by
    apply BitVec.eq_of_getLsbD_eq
    intro i hi
    simp only [BitVec.getLsbD_xor, BitVec.getLsbD_and, BitVec.getLsbD_not, hi]
    cases v.getLsbD i <;> simp
  have hclear : ∀ i, i < 8 → (v &&& ~~~0xFF#32).getLsbD i = false := by
    intro i hi
    simp only [BitVec.getLsbD_and, BitVec.getLsbD_not, low_byte_bit, hi, decide_true,
      Bool.not_true, Bool.and_false]
  have hhigh : (v &&& ~~~0xFF#32) >>> 8 = running.toBitVec >>> 8 := by
    apply BitVec.eq_of_getLsbD_eq
    intro i hi
    have hbyte : byte.toUInt32.toBitVec.getLsbD (8 + i) = false := by
      rw [UInt8.toBitVec_toUInt32, BitVec.getLsbD_setWidth,
        BitVec.getLsbD_of_ge byte.toBitVec (8 + i) (by omega), Bool.and_false]
    have hnot : ¬ 8 + i < 8 := by omega
    simp only [v, BitVec.getLsbD_ushiftRight, BitVec.getLsbD_and, BitVec.getLsbD_not,
      low_byte_bit, UInt32.toBitVec_xor, BitVec.getLsbD_xor, hbyte, Bool.xor_false, hnot,
      decide_false, Bool.not_false, Bool.and_true]
    by_cases hin : 8 + i < 32
    · simp [hin]
    · simp [BitVec.getLsbD_of_ge running.toBitVec (8 + i) (by omega)]
  have hsteps : bitStep^[8] v = bitStep^[8] (v &&& 0xFF#32) ^^^ (running.toBitVec >>> 8) := by
    conv_lhs => rw [hsplit]
    rw [iterate_bitStep_xor, iterate_bitStep_clear 8 _ hclear, hhigh]
  show (tableEntry _ ^^^ _).toBitVec = bitStep^[8] v
  rw [hsteps, UInt32.toBitVec_xor, tableEntry_toBitVec]
  rfl

theorem crcByte_eq_iff (running running' : UInt32) (byte byte' : UInt8) :
    crcByte running byte = crcByte running' byte' ↔
      running ^^^ byte.toUInt32 = running' ^^^ byte'.toUInt32 := by
  rw [← UInt32.toBitVec_inj, crcByte_toBitVec, crcByte_toBitVec,
    (bitStep_injective.iterate 8).eq_iff, UInt32.toBitVec_inj]

theorem foldl_crcByte_injective (bytes : List UInt8) (running running' : UInt32)
    (h : bytes.foldl crcByte running = bytes.foldl crcByte running') : running = running' := by
  induction bytes generalizing running running' with
  | nil => exact h
  | cons byte bytes ih =>
    have hstep := ih _ _ h
    rw [crcByte_eq_iff] at hstep
    exact (UInt32.xor_left_inj _).mp hstep

theorem crc32Update_byte_injective (crc : UInt32) (front back : List UInt8) (byte byte' : UInt8)
    (h : crc32Update crc (front ++ byte :: back) = crc32Update crc (front ++ byte' :: back)) :
    byte = byte' := by
  simp only [crc32Update, List.foldl_append, List.foldl_cons] at h
  have hstep := foldl_crcByte_injective back _ _ (UInt32.not_inj.mp h)
  rw [crcByte_eq_iff, UInt32.xor_right_inj] at hstep
  have hnat := congrArg UInt32.toNat hstep
  rw [UInt8.toNat_toUInt32, UInt8.toNat_toUInt32] at hnat
  exact UInt8.toNat_inj.mp hnat

theorem crc32Update_set_ne (crc : UInt32) (bytes : List UInt8) (i : Nat) (v : UInt8)
    (hset : bytes.set i v ≠ bytes) : crc32Update crc (bytes.set i v) ≠ crc32Update crc bytes := by
  intro h
  have hi : i < bytes.length := by
    by_contra hge
    exact hset (List.set_eq_of_length_le (by omega))
  have hself : bytes = bytes.take i ++ bytes[i] :: bytes.drop (i + 1) := by
    simp
  have hchanged : bytes.set i v = bytes.take i ++ v :: bytes.drop (i + 1) := by
    rw [List.set_eq_take_append_cons_drop, if_pos hi]
  have hbyte : v = bytes[i] := by
    apply crc32Update_byte_injective crc (bytes.take i) (bytes.drop (i + 1))
    rw [← hchanged, ← hself]
    exact h
  exact hset (by rw [hchanged, hbyte, ← hself])

end LoadForge.Core
