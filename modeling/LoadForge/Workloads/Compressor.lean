import LoadForge.Framework.Buffer
import LoadForge.Framework.Bytes
import LoadForge.Framework.Lz4

namespace LoadForge.Workloads.Compression

open Framework Framework.Lz4

def kMinMatch : Nat := 4
def kLastLiterals : Nat := 5
def kMatchFindLimit : Nat := 12
def kMaxOffset : Nat := 65535
def kLengthEscape : Nat := 15
def kHashLog : UInt32 := 12

/-- The largest block a compressor may emit for so many bytes. -/
def compressBound (size : Nat) : Nat := size + size / 255 + 16

/-- The little-endian word at an index; there is none that is not all inside. -/
def loadLe32 (bytes : List UInt8) (index : Nat) : Option UInt32 := do
  let b0 ← bytes[index]?
  let b1 ← bytes[index + 1]?
  let b2 ← bytes[index + 2]?
  let b3 ← bytes[index + 3]?
  return UInt32.ofNat (leNat [b0, b1, b2, b3])

/-- The slot four bytes hash to: the top bits of their product with Knuth's constant. -/
def hashSlot (fourBytes : UInt32) : Nat := ((fourBytes * 2654435761) >>> (32 - kHashLog)).toNat

/-- The match finder's table: a position in each slot. -/
def Table : Type := Nat → UInt32

def Table.put (table : Table) (slot : Nat) (position : UInt32) : Table :=
  fun other => if other = slot then position else table other

def clearedTable : Table := fun _ => 0

/-- What a length has beyond its escape, as a loop of so many rounds at most. -/
def writeLength : Nat → Output UInt8 → Nat → Option (Output UInt8)
  | 0, block, rest => block.put (UInt8.ofNat rest)
  | rounds + 1, block, rest =>
    if 255 ≤ rest then (block.put 0xFF).bind fun block => writeLength rounds block (rest - 255)
    else block.put (UInt8.ofNat rest)

/-- A length's extra bytes, when it does not fit its field. -/
def writeExtra (block : Output UInt8) (length : Nat) : Option (Output UInt8) :=
  if kLengthEscape ≤ length then
    writeLength ((length - kLengthEscape) / 255) block (length - kLengthEscape)
  else some block

/-- One sequence; a match length of 0 makes it the last, with literals only. -/
def writeSequence (block : Output UInt8) (literals : List UInt8) (offset matchLength : Nat) :
    Option (Output UInt8) := do
  let matchCode := if matchLength = 0 then 0 else matchLength - kMinMatch
  let token := (min literals.length kLengthEscape <<< 4) ||| min matchCode kLengthEscape
  let block ← block.put (UInt8.ofNat token)
  let block ← writeExtra block literals.length
  let block ← block.puts literals
  if matchLength = 0 then return block
  else
    let block ← block.put (UInt8.ofNat (offset &&& 0xFF))
    let block ← block.put (UInt8.ofNat (offset >>> 8))
    writeExtra block matchCode

/-- How far two positions match, from a length on and for `room` bytes more at most. -/
def extendMatch (input : List UInt8) (candidate position : Nat) : Nat → Nat → Option Nat
  | 0, length => some length
  | room + 1, length => do
    let there ← input[candidate + length]?
    let here ← input[position + length]?
    if there = here then extendMatch input candidate position room (length + 1)
    else return length

structure Finder where
  block : Output UInt8
  table : Table
  anchor : Nat := 0
  position : Nat := 0

def Finder.skip (f : Finder) (table : Table) : Finder :=
  { f with table := table, position := f.position + 1 }

/-- A match at this position: the literals before it and the match are written. -/
def Finder.take (f : Finder) (table : Table) (input : List UInt8) (candidate length : Nat) :
    Option Finder :=
  (writeSequence f.block ((input.drop f.anchor).take (f.position - f.anchor))
    (f.position - candidate) length).map fun block =>
      ⟨block, table, f.position + length, f.position + length⟩

/-- One position. The candidate's bytes are looked at only when it lies before it and near
enough. -/
def Finder.round (input : List UInt8) (f : Finder) : Option Finder := do
  let fourBytes ← loadLe32 input f.position
  let slot := hashSlot fourBytes
  let candidate := (f.table slot).toNat
  let table := f.table.put slot (UInt32.ofNat f.position)
  if candidate < f.position ∧ f.position - candidate ≤ kMaxOffset then
    let there ← loadLe32 input candidate
    if there = fourBytes then
      let matchEnd := input.length - kLastLiterals
      let length ← extendMatch input candidate f.position (matchEnd - (f.position + kMinMatch))
        kMinMatch
      f.take table input candidate length
    else return f.skip table
  else return f.skip table

/-- Every position up to the last a match may start at. A round moves on by one at least. -/
def Finder.loop (input : List UInt8) (lastStart : Nat) : Nat → Finder → Option Finder
  | 0, f => some f
  | rounds + 1, f =>
    if f.position ≤ lastStart then (f.round input).bind fun f => f.loop input lastStart rounds
    else some f

/-- The matches of a block, up to the literals that end it. -/
def findMatches (input : List UInt8) (block : List UInt8) (table : Table) : Option Finder :=
  if kMatchFindLimit < input.length then
    let lastStart := input.length - kMatchFindLimit
    Finder.loop input lastStart (lastStart + 1) ⟨⟨block, 0⟩, clearedTable, 0, 0⟩
  else some ⟨⟨block, 0⟩, table, 0, 0⟩

/-- The block written to the front of a buffer, or nothing where an access is outside. -/
def compressBlock (input : List UInt8) (block : List UInt8) (table : Table) :
    Option (Output UInt8 × Table) := do
  let f ← findMatches input block table
  let written ← writeSequence f.block (input.drop f.anchor) 0 0
  return (written, f.table)

theorem writeLength_eq (rounds : Nat) (block : Output UInt8) (rest : Nat)
    (hr : rounds = rest / 255) : writeLength rounds block rest = block.puts (extension rest) := by
  induction rounds generalizing block rest with
  | zero =>
    have hlt : rest < 255 := by omega
    rw [extension_of_lt rest hlt, Output.puts, writeLength]
    cases block.put (UInt8.ofNat rest) with
    | none => rfl
    | some block' => rfl
  | succ rounds ih =>
    have hle : 255 ≤ rest := by omega
    rw [extension_of_le rest hle, writeLength, if_pos hle, Output.puts]
    cases block.put 255 with
    | none => rfl
    | some block' => exact ih block' (rest - 255) (by omega)

section

variable (block : Output UInt8)

theorem writeExtra_eq (length : Nat) : writeExtra block length = block.puts (extra length) := by
  rw [writeExtra, extra, kLengthEscape]
  split_ifs with h
  · exact writeLength_eq _ block _ rfl
  · rfl

theorem writeSequence_match (s : Sequence) (hl : 4 ≤ s.length) :
    writeSequence block s.literals s.offset s.length = block.puts s.bytes := by
  have hne : s.length ≠ 0 := by omega
  have hlow : UInt8.ofNat (s.offset &&& 0xFF) = UInt8.ofNat (s.offset % 256) :=
    congrArg UInt8.ofNat (Nat.and_two_pow_sub_one_eq_mod s.offset 8)
  have hhigh : UInt8.ofNat (s.offset >>> 8) = UInt8.ofNat (s.offset / 256) :=
    congrArg UInt8.ofNat (Nat.shiftRight_eq_div_pow s.offset 8)
  simp only [writeSequence, if_neg hne, kLengthEscape, kMinMatch, token_eq_or, hlow, hhigh,
    Sequence.bytes, offsetBytes, Output.puts, Output.puts_append, writeExtra_eq,
    Option.bind_eq_bind, List.cons_append, List.nil_append]

theorem writeSequence_last (literals : List UInt8) :
    writeSequence block literals 0 0 = block.puts (lastBytes literals) := by
  have htoken := token_eq_or literals.length 0
  rw [writeSequence, if_pos rfl, kLengthEscape, htoken]
  simp only [lastBytes, Output.puts, Output.puts_append, writeExtra_eq, Option.bind_eq_bind, if_true]
  cases block.put (token literals.length 0) with
  | none => rfl
  | some block' =>
    cases hextra : block'.puts (extra literals.length) with
    | none => simp [hextra]
    | some block'' =>
      simp only [Option.bind_some, hextra]
      cases block''.puts literals <;> rfl

end

end LoadForge.Workloads.Compression
