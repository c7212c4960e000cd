import Mathlib.Data.Nat.Bitwise
import Mathlib.Tactic.Ring

namespace LoadForge.Framework.Lz4

open List

/-- A sequence of the block format: literals, and a match that repeats what lies `offset` back. -/
structure Sequence where
  literals : List UInt8
  offset : Nat
  length : Nat

/-- What a length has beyond its field: bytes of 255 and a last one below it. -/
def extension (rest : Nat) : List UInt8 :=
  List.replicate (rest / 255) 255 ++ [UInt8.ofNat (rest % 255)]

def extra (length : Nat) : List UInt8 := if 15 ≤ length then extension (length - 15) else []

/-- The two fields of a token, each at most 15. -/
def token (literals code : Nat) : UInt8 := UInt8.ofNat (min literals 15 * 16 + min code 15)

def offsetBytes (offset : Nat) : List UInt8 :=
  [UInt8.ofNat (offset % 256), UInt8.ofNat (offset / 256)]

def Sequence.bytes (s : Sequence) : List UInt8 :=
  token s.literals.length (s.length - 4) :: (extra s.literals.length ++
    (s.literals ++ (offsetBytes s.offset ++ extra (s.length - 4))))

/-- The last sequence has literals only. -/
def lastBytes (literals : List UInt8) : List UInt8 :=
  token literals.length 0 :: (extra literals.length ++ literals)

def blockBytes (sequences : List Sequence) (last : List UInt8) : List UInt8 :=
  sequences.flatMap Sequence.bytes ++ lastBytes last

/-- So many bytes more, each the one that lies `offset` before it. -/
def copyBack (offset : Nat) : Nat → List UInt8 → List UInt8
  | 0, out => out
  | count + 1, out => copyBack offset count (out ++ [out.getD (out.length - offset) 0])

/-- What some sequences make of the data before them. -/
def denote : List UInt8 → List Sequence → List UInt8
  | out, [] => out
  | out, s :: rest => denote (copyBack s.offset s.length (out ++ s.literals)) rest

/-- The rules on a match that begins at `start` in data of `size` bytes. -/
structure Sequence.Keeps (s : Sequence) (size start : Nat) : Prop where
  positive : 1 ≤ s.offset
  twoBytes : s.offset ≤ 65535
  inside : s.offset ≤ start
  least : 4 ≤ s.length
  early : start + 12 ≤ size
  clear : start + s.length + 5 ≤ size

def WellFormed (size : Nat) : Nat → List Sequence → Prop
  | _, [] => True
  | start, s :: rest =>
    s.Keeps size (start + s.literals.length) ∧
      WellFormed size (start + s.literals.length + s.length) rest

structure Sequence.InWords (s : Sequence) : Prop where
  literals : s.literals.length < 2 ^ 64
  length : s.length < 2 ^ 64

theorem wellFormed_inWords (size start : Nat) (sequences : List Sequence)
    (h : WellFormed size start sequences) (hs : size < 2 ^ 64) : ∀ s ∈ sequences, s.InWords := by
  induction sequences generalizing start with
  | nil =>
    intro s hmem
    cases hmem
  | cons first rest ih =>
    intro s hmem
    obtain ⟨hkeeps, hrest⟩ := h
    rcases mem_cons.mp hmem with rfl | hmore
    · have hclear := hkeeps.clear
      exact ⟨by omega, by omega⟩
    · exact ih _ hrest s hmore

theorem extension_of_lt (rest : Nat) (h : rest < 255) : extension rest = [UInt8.ofNat rest] := by
  rw [extension, Nat.div_eq_of_lt h, Nat.mod_eq_of_lt h]
  rfl

theorem extension_of_le (rest : Nat) (h : 255 ≤ rest) :
    extension rest = 255 :: extension (rest - 255) := by
  have hdiv : rest / 255 = (rest - 255) / 255 + 1 := by omega
  have hmod : rest % 255 = (rest - 255) % 255 := by omega
  rw [extension, hdiv, hmod, replicate_succ]
  rfl

theorem extension_length (rest : Nat) : (extension rest).length = rest / 255 + 1 := by
  simp [extension]

theorem extra_length_le (length : Nat) : (extra length).length ≤ (length + 240) / 255 := by
  rw [extra]
  split_ifs with h
  · rw [extension_length]
    omega
  · exact Nat.zero_le _

theorem extra_length_le_sub (length : Nat) : (extra length).length ≤ length - 14 := by
  rw [extra]
  split_ifs with h
  · rw [extension_length]
    omega
  · exact Nat.zero_le _

theorem Sequence.bytes_length (s : Sequence) :
    s.bytes.length = 1 + (extra s.literals.length).length + s.literals.length + 2 +
      (extra (s.length - 4)).length := by
  simp [Sequence.bytes, offsetBytes]
  omega

theorem Sequence.bytes_length_le (s : Sequence) (h : 4 ≤ s.length) :
    s.bytes.length ≤ (s.literals.length + s.length) + (s.literals.length + s.length) / 255 := by
  have hliterals := extra_length_le s.literals.length
  have hmatch := extra_length_le_sub (s.length - 4)
  rw [s.bytes_length]
  omega

theorem lastBytes_length_le (literals : List UInt8) :
    (lastBytes literals).length ≤ literals.length + literals.length / 255 + 2 := by
  have hextra := extra_length_le literals.length
  rw [lastBytes, length_cons, length_append]
  omega

theorem copyBack_length (offset count : Nat) (out : List UInt8) :
    (copyBack offset count out).length = out.length + count := by
  induction count generalizing out with
  | zero => rfl
  | succ count ih =>
    rw [copyBack, ih, length_append, length_singleton]
    omega

theorem denote_append (out : List UInt8) (first second : List Sequence) :
    denote out (first ++ second) = denote (denote out first) second := by
  induction first generalizing out with
  | nil => rfl
  | cons s rest ih => exact ih _

theorem wellFormed_append (size : Nat) (out : List UInt8) (first second : List Sequence)
    (h : WellFormed size out.length first)
    (h' : WellFormed size (denote out first).length second) :
    WellFormed size out.length (first ++ second) := by
  induction first generalizing out with
  | nil => exact h'
  | cons s rest ih =>
    have hnext := ih (copyBack s.offset s.length (out ++ s.literals))
    rw [copyBack_length, length_append] at hnext
    exact ⟨h.1, hnext h.2 h'⟩

theorem flatMap_bytes_length_le (size : Nat) (out : List UInt8) (sequences : List Sequence)
    (h : WellFormed size out.length sequences) :
    (sequences.flatMap Sequence.bytes).length + out.length + out.length / 255 ≤
      (denote out sequences).length + (denote out sequences).length / 255 := by
  induction sequences generalizing out with
  | nil =>
    simp only [flatMap_nil, length_nil, denote]
    omega
  | cons s rest ih =>
    have hcopied : (copyBack s.offset s.length (out ++ s.literals)).length =
        out.length + s.literals.length + s.length := by
      rw [copyBack_length, length_append]
    have hrest := ih (copyBack s.offset s.length (out ++ s.literals)) (by
      rw [hcopied]
      exact h.2)
    have hcost := s.bytes_length_le h.1.least
    rw [hcopied] at hrest
    rw [flatMap_cons, length_append, denote]
    omega

theorem copyBack_take (data : List UInt8) (start offset length : Nat) (ho : 1 ≤ offset)
    (hs : offset ≤ start) (hl : start + length ≤ data.length)
    (hm : ∀ k < length, data[start - offset + k]? = data[start + k]?) :
    copyBack offset length (data.take start) = data.take (start + length) := by
  induction length generalizing start with
  | zero => rfl
  | succ length ih =>
    have hlen : (data.take start).length = start := by
      rw [length_take]
      omega
    have hin : start < data.length := by omega
    have hfirst : (data.take start).getD (start - offset) 0 = data[start] := by
      have heq := hm 0 (Nat.zero_lt_succ _)
      rw [Nat.add_zero, Nat.add_zero, getElem?_eq_getElem hin] at heq
      rw [getD_eq_getElem?_getD, getElem?_take_of_lt (by omega), heq]
      rfl
    have hnext : data.take start ++ [data[start]] = data.take (start + 1) := by
      rw [take_add_one, getElem?_eq_getElem hin]
      rfl
    rw [copyBack, hlen, hfirst, hnext, ih (start + 1) (by omega) (by omega)]
    · rw [Nat.add_assoc, Nat.add_comm 1]
    · intro k hk
      have heq := hm (k + 1) (by omega)
      have hback : start - offset + (k + 1) = start + 1 - offset + k := by omega
      have hfront : start + (k + 1) = start + 1 + k := by omega
      rw [hback, hfront] at heq
      exact heq

theorem token_fields (literals code : Nat) :
    (token literals code).toNat >>> 4 = min literals 15 ∧
      (token literals code).toNat &&& 15 = min code 15 := by
  have hvalue : (token literals code).toNat = min literals 15 * 16 + min code 15 := by
    rw [token, UInt8.toNat_ofNat']
    omega
  have hlow : (token literals code).toNat &&& 15 = (token literals code).toNat % 2 ^ 4 :=
    Nat.and_two_pow_sub_one_eq_mod _ 4
  rw [hlow, hvalue, Nat.shiftRight_eq_div_pow]
  omega

theorem token_eq_or (literals code : Nat) :
    UInt8.ofNat (min literals 15 <<< 4 ||| min code 15) = token literals code := by
  have hor := Nat.shiftLeft_add_eq_or_of_lt (show min code 15 < 2 ^ 4 by omega) (min literals 15)
  rw [token, ← hor, Nat.shiftLeft_eq]

end LoadForge.Framework.Lz4
