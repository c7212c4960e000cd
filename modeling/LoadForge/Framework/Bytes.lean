import Mathlib.Data.List.Basic
import Mathlib.Tactic.Ring

namespace LoadForge.Framework

open List

/-- The `w` low bytes of a number, least significant first. -/
def leBytes : Nat → Nat → List UInt8
  | 0, _ => []
  | w + 1, v => UInt8.ofNat v :: leBytes w (v / 256)

def leNat : List UInt8 → Nat
  | [] => 0
  | b :: bs => b.toNat + 256 * leNat bs

@[simp] theorem leBytes_length (w v : Nat) : (leBytes w v).length = w := by
  induction w generalizing v with
  | zero => rfl
  | succ w ih => simp [leBytes, ih]

theorem leNat_leBytes (w v : Nat) : leNat (leBytes w v) = v % 256 ^ w := by
  induction w generalizing v with
  | zero => simp [leBytes, leNat, Nat.mod_one]
  | succ w ih =>
    have hb : (UInt8.ofNat v).toNat = v % 256 := rfl
    rw [leBytes, leNat, ih, hb, Nat.pow_succ', Nat.mod_mul]

theorem leNat_leBytes_of_lt (w v : Nat) (hv : v < 256 ^ w) : leNat (leBytes w v) = v := by
  rw [leNat_leBytes, Nat.mod_eq_of_lt hv]

theorem leNat_lt (bytes : List UInt8) : leNat bytes < 256 ^ bytes.length := by
  induction bytes with
  | nil => simp [leNat]
  | cons b bytes ih =>
    have hb := b.toNat_lt
    rw [leNat, length_cons, Nat.pow_succ]
    omega

theorem leNat_inj (xs ys : List UInt8) (hl : xs.length = ys.length) (h : leNat xs = leNat ys) :
    xs = ys := by
  induction xs generalizing ys with
  | nil => exact (length_eq_zero_iff.mp hl.symm).symm
  | cons x xs ih =>
    cases ys with
    | nil => cases hl
    | cons y ys =>
      have hx := x.toNat_lt
      have hy := y.toNat_lt
      simp only [leNat] at h
      have hhead : x = y := UInt8.toNat_inj.mp (by omega)
      rw [hhead, ih ys (Nat.succ.inj hl) (by omega)]

theorem leBytes_leNat (bytes : List UInt8) : leBytes bytes.length (leNat bytes) = bytes := by
  apply leNat_inj
  · exact leBytes_length _ _
  · exact leNat_leBytes_of_lt _ _ (leNat_lt bytes)

theorem drop_flatMap {α : Type} (f : α → List UInt8) (w : Nat) (hw : ∀ a, (f a).length = w)
    (xs : List α) (index : Nat) :
    (xs.flatMap f).drop (w * index) = (xs.drop index).flatMap f := by
  induction xs generalizing index with
  | nil => simp
  | cons x xs ih =>
    cases index with
    | zero => simp
    | succ index =>
      rw [flatMap_cons, drop_succ_cons, Nat.mul_succ, Nat.add_comm, ← drop_drop,
        drop_left' (hw x), ih index]

def hasSingleBit (n : Nat) : Bool := decide (n ≠ 0 ∧ n &&& (n - 1) = 0)

theorem hasSingleBit_iff (n : Nat) : hasSingleBit n = true ↔ n.isPowerOfTwo := by
  rw [hasSingleBit, decide_eq_true_eq]
  exact Nat.ne_zero_and_sub_one_eq_zero_iff_isPowerOfTwo

def bytesOf (s : String) : List UInt8 := s.toList.flatMap String.utf8EncodeChar

def textOf (bs : List UInt8) : String := String.ofList (bs.map fun b => Char.ofNat b.toNat)

def rawBytes (s : String) : List UInt8 := s.toList.map fun c => UInt8.ofNat c.toNat

theorem utf8EncodeChar_ascii (c : Char) (hc : c.toNat < 128) :
    String.utf8EncodeChar c = [UInt8.ofNat c.toNat] := by
  have hval : c.val.toNat ≤ 127 := Nat.le_of_lt_succ hc
  rw [String.utf8EncodeChar, if_pos hval]
  rfl

theorem utf8EncodeChar_beyond (c : Char) (hc : ¬ c.toNat < 128) :
    ∃ b bs, String.utf8EncodeChar c = b :: bs ∧ 128 ≤ b.toNat := by
  have hval : ¬ c.val.toNat ≤ 127 := fun h => hc (Nat.lt_succ_of_le h)
  rw [String.utf8EncodeChar, if_neg hval]
  split_ifs
  · refine ⟨_, _, rfl, ?_⟩
    rw [UInt8.toNat_ofNat']
    omega
  · refine ⟨_, _, rfl, ?_⟩
    rw [UInt8.toNat_ofNat']
    omega
  · refine ⟨_, _, rfl, ?_⟩
    rw [UInt8.toNat_ofNat']
    omega

theorem charOfNat_toNat (n : Nat) (hn : n < 256) : (Char.ofNat n).toNat = n := by
  have hvalid : n.isValidChar := .inl (by omega)
  rw [Char.ofNat, dif_pos hvalid]
  rfl

theorem rawBytes_textOf (bs : List UInt8) : rawBytes (textOf bs) = bs := by
  have hbyte : (fun b : UInt8 => UInt8.ofNat (Char.ofNat b.toNat).toNat) = id := by
    funext b
    rw [charOfNat_toNat b.toNat b.toNat_lt, UInt8.ofNat_toNat, id]
  rw [rawBytes, textOf, String.toList_ofList, map_map]
  exact (congrArg (map · bs) hbyte).trans (map_id bs)

theorem textOf_rawBytes (s : String) (hs : ∀ c ∈ s.toList, c.toNat < 256) :
    textOf (rawBytes s) = s := by
  have hchars : (s.toList.map fun c => UInt8.ofNat c.toNat).map (fun b => Char.ofNat b.toNat) =
      s.toList := by
    rw [map_map]
    apply (map_congr_left _).trans (map_id s.toList)
    intro c hc
    have hbyte : (UInt8.ofNat c.toNat).toNat = c.toNat := by
      rw [UInt8.toNat_ofNat']
      exact Nat.mod_eq_of_lt (hs c hc)
    simp [hbyte]
  rw [textOf, rawBytes, hchars, String.ofList_toList]

theorem toNat_lt_of_textOf {bs : List UInt8} {c : Char} (hc : c ∈ (textOf bs).toList) :
    c.toNat < 256 := by
  rw [textOf, String.toList_ofList] at hc
  obtain ⟨b, -, rfl⟩ := mem_map.mp hc
  rw [charOfNat_toNat b.toNat b.toNat_lt]
  exact b.toNat_lt

theorem textOf_bytesOf (s : String) (hs : ∀ c ∈ s.toList, c.toNat < 128) :
    textOf (bytesOf s) = s := by
  have hchars : ∀ cs : List Char, (∀ c ∈ cs, c.toNat < 128) →
      (cs.flatMap String.utf8EncodeChar).map (fun b => Char.ofNat b.toNat) = cs := by
    intro cs hcs
    induction cs with
    | nil => rfl
    | cons c cs ih =>
      have hc := hcs c (by simp)
      have hbyte : (UInt8.ofNat c.toNat).toNat = c.toNat := by
        rw [UInt8.toNat_ofNat']
        omega
      rw [flatMap_cons, utf8EncodeChar_ascii c hc, map_append,
        ih fun c' hc' => hcs c' (by simp [hc']), map_cons, hbyte,
        Char.ofNat_toNat]
      rfl
  rw [textOf, bytesOf, hchars _ hs, String.ofList_toList]

theorem length_bytesOf (s : String) (hs : ∀ c ∈ s.toList, c.toNat < 128) :
    (bytesOf s).length = s.toList.length := by
  have hchars := congrArg (fun text => text.toList.length) (textOf_bytesOf s hs)
  rw [textOf, String.toList_ofList, length_map] at hchars
  exact hchars

theorem ascii_of_textOf (s : String) (hs : ∀ c ∈ (textOf (bytesOf s)).toList, c.toNat < 128) :
    ∀ c ∈ s.toList, c.toNat < 128 := by
  intro c hc
  by_contra hbeyond
  obtain ⟨b, bs, hbytes, hb⟩ := utf8EncodeChar_beyond c hbeyond
  have hmem : b ∈ bytesOf s := by
    rw [bytesOf, mem_flatMap]
    refine ⟨c, hc, ?_⟩
    rw [hbytes]
    exact (by simp)
  have hchar := hs (Char.ofNat b.toNat) (by
    rw [textOf, String.toList_ofList]
    exact mem_map_of_mem hmem)
  rw [charOfNat_toNat b.toNat b.toNat_lt] at hchar
  omega

theorem set_ne_self (bytes : List UInt8) (i : Nat) (v : UInt8) (hi : i < bytes.length)
    (hv : v ≠ bytes.getD i 0) : bytes.set i v ≠ bytes := by
  intro h
  apply hv
  have hget := congrArg (fun l => l.getD i 0) h
  simpa [getD_eq_getElem?_getD, getElem?_set, hi] using hget

end LoadForge.Framework
