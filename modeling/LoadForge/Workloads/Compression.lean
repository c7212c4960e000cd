import LoadForge.Workloads.MatchFinding

namespace LoadForge.Workloads.Compression

open Framework Framework.Lz4 List

def kInputBytes : Nat := 64 <<< 10
def kMagic : UInt32 := 0x315A464C
def kHeaderBytes : Nat := 8
def outputBytesFor (inputBytes : Nat) : Nat := kHeaderBytes + compressBound inputBytes

def kOutputBytes : Nat := outputBytesFor kInputBytes
def kBlockBound : Nat := compressBound kInputBytes

/-- A word written byte by byte; there is no write that is not all inside. -/
def storeLe32 (bytes : List UInt8) (index : Nat) (value : UInt32) : Option (List UInt8) :=
  if index + 4 ≤ bytes.length then
    some (bytes.take index ++ (leBytes 4 value.toNat ++ bytes.drop (index + 4)))
  else none

/-- One unit: the block behind its header, and zeros up to the end of the output. -/
def writeUnit (input output : List UInt8) (table : Table) : Option (List UInt8 × Table) := do
  let (written, table) ← compressBlock input (output.drop kHeaderBytes) table
  let output := output.take kHeaderBytes ++ written.buffer
  let output ← storeLe32 output 0 kMagic
  let output ← storeLe32 output 4 (UInt32.ofNat written.used)
  let blockEnd := kHeaderBytes + written.used
  return (output.take blockEnd ++ List.replicate (output.length - blockEnd) 0, table)

theorem compressBound_kInputBytes : kBlockBound = 65809 := by decide

theorem storeLe32_eq (bytes word rest : List UInt8) (value : UInt32) (hw : word.length = 4) :
    storeLe32 (bytes ++ (word ++ rest)) bytes.length value =
      some (bytes ++ (leBytes 4 value.toNat ++ rest)) := by
  have hlen : bytes.length + 4 ≤ (bytes ++ (word ++ rest)).length := by
    rw [length_append, length_append, hw]
    omega
  rw [storeLe32, if_pos hlen, take_left' rfl, ← append_assoc bytes word rest,
    drop_left' (by rw [length_append, hw])]

theorem writeUnit_spec (input output : List UInt8) (table : Table) (hi : input.length = kInputBytes)
    (ho : output.length = kOutputBytes) :
    ∃ sequences final table', writeUnit input output table = some (leBytes 4 kMagic.toNat ++
        (leBytes 4 (blockBytes sequences final).length ++ (blockBytes sequences final ++
          replicate (kBlockBound - (blockBytes sequences final).length) 0)), table') ∧
      (blockBytes sequences final).length ≤ kBlockBound ∧
      WellFormed kInputBytes 0 sequences ∧ denote [] sequences ++ final = input := by
  have hblock : (output.drop kHeaderBytes).length = kBlockBound := by
    rw [length_drop, ho, kOutputBytes, outputBytesFor, Nat.add_sub_cancel_left]
    rfl
  obtain ⟨written, table', sequences, final, hcompressed, hwrote, hbound, hwell, hdenoted⟩ :=
    compressBlock_spec input (output.drop kHeaderBytes) table (by rw [hblock, hi]; rfl)
  have hused : written.used = (blockBytes sequences final).length := by
    rw [hwrote.used]
    exact Nat.zero_add _
  have hsize : written.buffer.length = kBlockBound := hwrote.size.trans hblock
  have hbytes := hwrote.fresh
  rw [hi] at hbound hwell
  refine ⟨sequences, final, table', ?_, by rw [← hused]; exact hbound, hwell, hdenoted⟩
  have hheader : (output.take kHeaderBytes).length = 4 + 4 := by
    rw [length_take, ho]
    decide
  have hfirst : output.take kHeaderBytes ++ written.buffer = [] ++
      ((output.take kHeaderBytes).take 4 ++
        ((output.take kHeaderBytes).drop 4 ++ written.buffer)) := by
    rw [nil_append, ← append_assoc, take_append_drop]
  have hmagic := storeLe32_eq [] ((output.take kHeaderBytes).take 4)
    ((output.take kHeaderBytes).drop 4 ++ written.buffer) kMagic
    (by rw [length_take, hheader]; rfl)
  have hlength := storeLe32_eq (leBytes 4 kMagic.toNat) ((output.take kHeaderBytes).drop 4)
    written.buffer (UInt32.ofNat written.used) (by rw [length_drop, hheader])
  have hword : (UInt32.ofNat written.used).toNat = written.used := by
    apply UInt32.toNat_ofNat_of_lt
    have hle : written.used ≤ 65809 := by
      rw [← compressBound_kInputBytes]
      exact hbound
    exact Nat.lt_of_le_of_lt hle (by decide)
  rw [← hfirst, nil_append, length_nil] at hmagic
  rw [leBytes_length, hword] at hlength
  have hfront : (leBytes 4 kMagic.toNat ++ (leBytes 4 written.used ++ written.buffer)).take
      (kHeaderBytes + written.used) = leBytes 4 kMagic.toNat ++ (leBytes 4 written.used ++
        blockBytes sequences final) := by
    rw [← append_assoc, take_append, take_of_length_le (by simp [kHeaderBytes]),
      ← hbytes, append_assoc]
    simp [kHeaderBytes]
  have hrest : (leBytes 4 kMagic.toNat ++ (leBytes 4 written.used ++ written.buffer)).length -
      (kHeaderBytes + written.used) = kBlockBound - written.used := by
    simp [leBytes_length, hsize, kHeaderBytes]
    omega
  simp only [writeUnit, hcompressed, Option.bind_eq_bind, Option.bind_some, hmagic, hlength]
  rw [hfront, hrest, ← hused]
  simp only [append_assoc]
  rfl

end LoadForge.Workloads.Compression
