import LoadForge.Framework.Bytes

namespace LoadForge.Framework

open List

/-- The little-endian word of a width at an offset. There is no read outside of the bytes. -/
def loadWord (width : Nat) (bytes : List UInt8) (offset : Nat) : Option Nat :=
  if offset + width ≤ bytes.length then some (leNat ((bytes.drop offset).take width)) else none

/-- A word written at an offset. There is no write outside of the bytes. -/
def storeWord (width : Nat) (bytes : List UInt8) (offset value : Nat) : Option (List UInt8) :=
  if offset + width ≤ bytes.length then
    some (bytes.take offset ++ (leBytes width value ++ bytes.drop (offset + width)))
  else none

structure Holds (width : Nat) (bytes : List UInt8) (n : Nat) (word : Nat → Nat) : Prop where
  size : bytes.length = n * width
  load : ∀ i < n, loadWord width bytes (i * width) = some (word i)

theorem word_bound (width : Nat) {n i : Nat} (hi : i < n) : i * width + width ≤ n * width := by
  rw [← Nat.succ_mul]
  exact Nat.mul_le_mul_right width hi

variable {bytes : List UInt8} {width : Nat}

theorem loadWord_eq {offset value : Nat} (h : loadWord width bytes offset = some value) :
    offset + width ≤ bytes.length ∧ leNat ((bytes.drop offset).take width) = value := by
  rw [loadWord] at h
  split_ifs at h with hle
  exact ⟨hle, Option.some.inj h⟩

theorem loadWord_append_left {front back : List UInt8} {offset : Nat}
    (h : offset + width ≤ front.length) :
    loadWord width (front ++ back) offset = loadWord width front offset := by
  rw [loadWord, loadWord, if_pos h, if_pos (by rw [length_append]; omega),
    drop_append_of_le_length (by omega), take_append_of_le_length]
  rw [length_drop]
  omega

theorem loadWord_append_right (width : Nat) (front back : List UInt8) (offset : Nat) :
    loadWord width (front ++ back) (front.length + offset) = loadWord width back offset := by
  have hiff : front.length + offset + width ≤ (front ++ back).length ↔
      offset + width ≤ back.length := by
    rw [length_append]
    omega
  simp only [loadWord, hiff, drop_append, drop_of_length_le (Nat.le_add_right _ _),
    nil_append, Nat.add_sub_cancel_left]

theorem holds_of_length (width : Nat) {n : Nat} (h : bytes.length = n * width) :
    Holds width bytes n fun i => leNat ((bytes.drop (i * width)).take width) := by
  refine ⟨h, ?_⟩
  intro i hi
  rw [loadWord, if_pos]
  rw [h]
  exact word_bound width hi

section

variable {n : Nat} {word : Nat → Nat} (h : Holds width bytes n word)
include h

theorem Holds.lt (i : Nat) (hi : i < n) : word i < 256 ^ width := by
  obtain ⟨hle, heq⟩ := loadWord_eq (h.load i hi)
  have hlt := leNat_lt ((bytes.drop (i * width)).take width)
  rw [length_take, length_drop, Nat.min_eq_left (by omega), heq] at hlt
  exact hlt

theorem Holds.congr {word' : Nat → Nat} (hw : ∀ i < n, word i = word' i) :
    Holds width bytes n word' := by
  refine ⟨h.size, ?_⟩
  intro i hi
  rw [h.load i hi, hw i hi]

omit h in
theorem storeWord_getElem? {offset value : Nat} (h : offset + width ≤ bytes.length) (k : Nat) :
    (bytes.take offset ++ (leBytes width value ++ bytes.drop (offset + width)))[k]? =
      if k < offset then bytes[k]?
      else if k < offset + width then (leBytes width value)[k - offset]? else bytes[k]? := by
  have htake : (bytes.take offset).length = offset := by
    rw [length_take, Nat.min_eq_left (by omega)]
  split_ifs with hbefore hinside
  · rw [getElem?_append_left (by omega), getElem?_take_of_lt hbefore]
  · rw [getElem?_append_right (by omega), htake,
      getElem?_append_left (by rw [leBytes_length]; omega)]
  · rw [getElem?_append_right (by omega), htake,
      getElem?_append_right (by rw [leBytes_length]; omega), leBytes_length, getElem?_drop]
    congr 1
    omega

theorem Holds.store {i value : Nat}
    (hi : i < n) (hv : value < 256 ^ width) :
    ∃ bytes', storeWord width bytes (i * width) value = some bytes' ∧
      Holds width bytes' n (Function.update word i value) := by
  have hle : i * width + width ≤ bytes.length := by
    rw [h.size]
    exact word_bound width hi
  have hsize : (bytes.take (i * width) ++ (leBytes width value ++
      bytes.drop (i * width + width))).length = n * width := by
    rw [length_append, length_append, length_take, length_drop, leBytes_length,
      Nat.min_eq_left (by omega), ← h.size]
    omega
  refine ⟨_, if_pos hle, hsize, ?_⟩
  intro j hj
  have hbound : j * width + width ≤ n * width := word_bound width hj
  rw [loadWord, if_pos (by rw [hsize]; exact hbound)]
  by_cases hij : j = i
  · rw [hij, Function.update_self]
    congr 1
    rw [drop_append_of_le_length (by rw [length_take]; omega), drop_of_length_le
      (by rw [length_take]; omega), nil_append, take_append_of_le_length
      (Nat.le_of_eq (leBytes_length width value).symm),
      take_of_length_le (Nat.le_of_eq (leBytes_length width value)),
      leNat_leBytes_of_lt width value hv]
  · rw [Function.update_of_ne hij, ← h.load j hj, loadWord, if_pos (by rw [h.size]; exact hbound)]
    congr 2
    apply ext_getElem?
    intro k
    by_cases hk : k < width
    · rw [getElem?_take_of_lt hk, getElem?_take_of_lt hk, getElem?_drop,
        getElem?_drop, storeWord_getElem? hle]
      rcases Nat.lt_or_gt_of_ne hij with hlt | hgt
      · have hbefore : j * width + width ≤ i * width := word_bound width hlt
        rw [if_pos (by omega)]
      · have hafter : i * width + width ≤ j * width := word_bound width hgt
        rw [if_neg (by omega), if_neg (by omega)]
    · rw [getElem?_eq_none (by rw [length_take]; omega),
        getElem?_eq_none (by rw [length_take]; omega)]

end

theorem Holds.unique {bytes bytes' : List UInt8} {n : Nat} {word : Nat → Nat}
    (h : Holds width bytes n word) (h' : Holds width bytes' n word) : bytes = bytes' := by
  induction n generalizing bytes bytes' word with
  | zero =>
    have hnil := h.size
    have hnil' := h'.size
    rw [Nat.zero_mul] at hnil hnil'
    rw [eq_nil_of_length_eq_zero hnil, eq_nil_of_length_eq_zero hnil']
  | succ n ih =>
    have hsize := h.size
    have hsize' := h'.size
    rw [Nat.succ_mul] at hsize hsize'
    have hfirst := (loadWord_eq (h.load 0 (Nat.succ_pos n))).2
    have hfirst' := (loadWord_eq (h'.load 0 (Nat.succ_pos n))).2
    rw [Nat.zero_mul, drop_zero] at hfirst hfirst'
    have hhead : bytes.take width = bytes'.take width := by
      apply leNat_inj
      · rw [length_take, length_take, hsize, hsize']
      · rw [hfirst, hfirst']
    have htail : ∀ {bytes : List UInt8}, Holds width bytes (n + 1) word →
        Holds width (bytes.drop width) n fun i => word (i + 1) := by
      intro bytes hb
      refine ⟨by rw [length_drop, hb.size, Nat.succ_mul, Nat.add_sub_cancel], ?_⟩
      intro i hi
      obtain ⟨hle, hword⟩ := loadWord_eq (hb.load (i + 1) (by omega))
      rw [Nat.succ_mul] at hle hword
      rw [loadWord, if_pos (by rw [length_drop]; omega), drop_drop, Nat.add_comm width, hword]
    rw [← take_append_drop width bytes, ← take_append_drop width bytes', hhead,
      ih (htail h) (htail h')]

end LoadForge.Framework
