import Mathlib.Tactic.Ring

namespace LoadForge.Rng

open List

/-- One counter, or one block of output. -/
structure Block where
  word0 : UInt32
  word1 : UInt32
  word2 : UInt32
  word3 : UInt32

structure Key where
  word0 : UInt32
  word1 : UInt32

def kPhiloxM0 : UInt32 := 0xD2511F53
def kPhiloxM1 : UInt32 := 0xCD9E8D57
def kPhiloxW0 : UInt32 := 0x9E3779B9
def kPhiloxW1 : UInt32 := 0xBB67AE85
def kPhiloxRounds : Nat := 10
def kBlockBytes : Nat := 16

def high (multiplier word : UInt32) : UInt32 :=
  ((multiplier.toUInt64 * word.toUInt64) >>> 32).toUInt32

def low (multiplier word : UInt32) : UInt32 := (multiplier.toUInt64 * word.toUInt64).toUInt32

def round (key : Key) (counter : Block) : Block where
  word0 := high kPhiloxM1 counter.word2 ^^^ counter.word1 ^^^ key.word0
  word1 := low kPhiloxM1 counter.word2
  word2 := high kPhiloxM0 counter.word0 ^^^ counter.word3 ^^^ key.word1
  word3 := low kPhiloxM0 counter.word0

/-- A round and its key, which is bumped before every round but the first. -/
def step (s : Block × Key) (index : Nat) : Block × Key :=
  let key := if 0 < index then ⟨s.2.word0 + kPhiloxW0, s.2.word1 + kPhiloxW1⟩ else s.2
  (round key s.1, key)

def philox4x32_10 (counter : Block) (key : Key) : Block :=
  ((List.range kPhiloxRounds).foldl step (counter, key)).1

def keyOf (seed : UInt64) : Key := ⟨seed.toUInt32, (seed >>> 32).toUInt32⟩

def blockAt (seed stream position : UInt64) : Block :=
  philox4x32_10 ⟨position.toUInt32, (position >>> 32).toUInt32, stream.toUInt32,
    (stream >>> 32).toUInt32⟩ (keyOf seed)

def Block.byte (block : Block) (at_ : Nat) : UInt8 :=
  let word := [block.word0, block.word1, block.word2, block.word3].getD (at_ / 4) 0
  ((word >>> UInt32.ofNat (8 * (at_ % 4))) &&& 0xFF).toUInt8

/-- The bytes of a block from its offset on, as far as there is room. -/
def fillBlock (seed stream : UInt64) (out : List UInt8) (index : Nat) : List UInt8 :=
  let offset := index * kBlockBytes
  let block := blockAt seed stream (UInt64.ofNat (offset / kBlockBytes))
  (List.range (min kBlockBytes (out.length - offset))).foldl
    (fun out byte => out.set (offset + byte) (block.byte byte)) out

def fillStream (seed stream : UInt64) (out : List UInt8) : List UInt8 :=
  (List.range ((out.length + kBlockBytes - 1) / kBlockBytes)).foldl (fillBlock seed stream) out

section Rounds

theorem low_eq (multiplier word : UInt32) : low multiplier word = multiplier * word := by
  simp [low]

/-- An inverse of the multiplier undoes the low word of its product. -/
theorem low_low {multiplier inverse : UInt32} (h : inverse * multiplier = 1) (word : UInt32) :
    low inverse (low multiplier word) = word := by
  rw [low_eq, low_eq, ← UInt32.mul_assoc, h, UInt32.one_mul]

theorem xor_cancel (mask word key : UInt32) : mask ^^^ (mask ^^^ word ^^^ key) ^^^ key = word := by
  rw [← UInt32.xor_assoc, ← UInt32.xor_assoc, UInt32.xor_self, UInt32.zero_xor, UInt32.xor_assoc,
    UInt32.xor_self, UInt32.xor_zero]

def kInverse0 : UInt32 := 0x991A7CDB
def kInverse1 : UInt32 := 0x6D7CAE67

/-- What a round was given. -/
def unround (key : Key) (block : Block) : Block :=
  let word0 := low kInverse0 block.word3
  let word2 := low kInverse1 block.word1
  ⟨word0, high kPhiloxM1 word2 ^^^ block.word0 ^^^ key.word0, word2,
    high kPhiloxM0 word0 ^^^ block.word2 ^^^ key.word1⟩

theorem round_bijective (key : Key) : Function.Bijective (round key) := by
  rw [Function.bijective_iff_has_inverse]
  refine ⟨unround key, ?_, ?_⟩
  · intro counter
    have h0 := low_low (show kInverse0 * kPhiloxM0 = 1 by decide) counter.word0
    have h1 := low_low (show kInverse1 * kPhiloxM1 = 1 by decide) counter.word2
    simp only [unround, round, h0, h1, xor_cancel]
  · intro block
    have h0 := low_low (show kPhiloxM0 * kInverse0 = 1 by decide) block.word3
    have h1 := low_low (show kPhiloxM1 * kInverse1 = 1 by decide) block.word1
    simp only [unround, round, h0, h1, xor_cancel]

theorem foldl_step_injective (rounds : List Nat) (key : Key) :
    Function.Injective fun counter => (rounds.foldl step (counter, key)).1 := by
  induction rounds generalizing key with
  | nil => exact fun a b h => h
  | cons index rounds ih =>
    intro a b h
    exact (round_bijective _).injective (ih _ h)

theorem halves_inj {a b : UInt64} (hlow : a.toUInt32 = b.toUInt32)
    (hhigh : (a >>> 32).toUInt32 = (b >>> 32).toUInt32) : a = b := by
  have hlow' := congrArg UInt32.toNat hlow
  have hhigh' := congrArg UInt32.toNat hhigh
  rw [UInt64.toNat_toUInt32, UInt64.toNat_toUInt32] at hlow' hhigh'
  rw [UInt64.toNat_shiftRight, UInt64.toNat_shiftRight, Nat.shiftRight_eq_div_pow,
    Nat.shiftRight_eq_div_pow] at hhigh'
  have ha := a.toNat_lt
  have hb := b.toNat_lt
  apply UInt64.toNat_inj.mp
  change a.toNat / 2 ^ 32 % 2 ^ 32 = b.toNat / 2 ^ 32 % 2 ^ 32 at hhigh'
  omega

theorem blockAt_injective (seed : UInt64) :
    Function.Injective fun at_ : UInt64 × UInt64 => blockAt seed at_.1 at_.2 := by
  intro a b h
  have hcounter := foldl_step_injective _ _ h
  injection hcounter with hlow hhigh hlow' hhigh'
  exact Prod.ext (halves_inj hlow' hhigh') (halves_inj hlow hhigh)

end Rounds

section Streams

variable {seed stream : UInt64} {size n : Nat} {out : List UInt8}

def byteAt (seed stream : UInt64) (i : Nat) : UInt8 :=
  (blockAt seed stream (UInt64.ofNat (i / 16))).byte (i % 16)

/-- A buffer whose first bytes are those of the stream. -/
structure Filled (seed stream : UInt64) (size n : Nat) (out : List UInt8) : Prop where
  length : out.length = size
  bytes : out.take n = (List.range n).map (byteAt seed stream)

theorem Filled.set (h : Filled seed stream size n out) (hn : n < size) :
    Filled seed stream size (n + 1) (out.set n (byteAt seed stream n)) := by
  refine ⟨length_set.trans h.length, ?_⟩
  rw [range_succ, map_append, ← h.bytes, take_add_one,
    take_set_of_le (Nat.le_refl n), getElem?_set_self (h.length ▸ hn)]
  rfl

theorem Filled.foldl_set (h : Filled seed stream size n out) {f : Nat → UInt8} {count : Nat}
    (hcount : n + count ≤ size) (hf : ∀ k < count, f k = byteAt seed stream (n + k)) :
    Filled seed stream size (n + count)
      ((range count).foldl (fun out k => out.set (n + k) (f k)) out) := by
  induction count with
  | zero => exact h
  | succ count ih =>
    rw [range_succ, foldl_append, foldl_cons, foldl_nil, hf count (Nat.lt_succ_self count)]
    exact (ih (by omega) fun k hk => hf k (Nat.lt_succ_of_lt hk)).set (by omega)

theorem Filled.block {index : Nat} (h : Filled seed stream size (index * 16) out)
    (hin : index * 16 < size) :
    Filled seed stream size (min ((index + 1) * 16) size) (fillBlock seed stream out index) := by
  have hend : min ((index + 1) * 16) size = index * 16 + min 16 (out.length - index * 16) := by
    rw [h.length]
    omega
  rw [hend]
  refine h.foldl_set (by rw [h.length]; omega) ?_
  intro k hk
  have hk16 : k < 16 := Nat.lt_of_lt_of_le hk (Nat.min_le_left _ _)
  have hblock : (index * 16 + k) / 16 = index * 16 / 16 := by omega
  have hbyte : (index * 16 + k) % 16 = k := by omega
  rw [byteAt, hblock, hbyte]
  rfl

theorem foldl_filled (seed stream : UInt64) (hn : n ≤ (out.length + 16 - 1) / 16) :
    Filled seed stream out.length (min (n * 16) out.length)
      ((range n).foldl (fillBlock seed stream) out) := by
  induction n with
  | zero => exact ⟨rfl, by simp⟩
  | succ n ih =>
    have hfilled := ih (by omega)
    rw [Nat.min_eq_left (by omega)] at hfilled
    rw [range_succ, foldl_append, foldl_cons, foldl_nil]
    exact hfilled.block (by omega)

theorem fillStream_eq (seed stream : UInt64) (out : List UInt8) :
    fillStream seed stream out = (range out.length).map (byteAt seed stream) := by
  have hfilled := foldl_filled seed stream (Nat.le_refl ((out.length + 15) / 16))
  rw [Nat.min_eq_right (by omega)] at hfilled
  rw [← hfilled.bytes, take_of_length_le (Nat.le_of_eq hfilled.length)]
  rfl

end Streams

/-- Rounds are bijections, so no two positions of a seed share a block, and a shorter stream is the
beginning of a longer one. -/
theorem philox_blocks_are_distinct :
    (∀ key, Function.Bijective (round key)) ∧
    (∀ seed, Function.Injective fun at_ : UInt64 × UInt64 => blockAt seed at_.1 at_.2) ∧
    ∀ seed stream (out : List UInt8), (fillStream seed stream out).length = out.length ∧
      ∀ longer : List UInt8, out.length ≤ longer.length →
        fillStream seed stream out = (fillStream seed stream longer).take out.length := by
  refine ⟨round_bijective, blockAt_injective, ?_⟩
  intro seed stream out
  simp only [fillStream_eq]
  refine ⟨by simp, ?_⟩
  intro longer hle
  rw [← map_take, take_range, Nat.min_eq_left hle]

end LoadForge.Rng
