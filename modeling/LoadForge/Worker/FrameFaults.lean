import LoadForge.Core.CrcDetect
import LoadForge.Worker.Reassembly

namespace LoadForge.Ipc

open LoadForge.Core Framework Worker

theorem look_mismatch (head checksum payload rest : List UInt8)
    (hh : head.length = kChecksumOffset) (hc : checksum.length = 4)
    (hl : field head 8 4 = payload.length)
    (hne : leNat checksum ≠ (checksumOf head payload).toNat) :
    ∃ fault, look (head ++ (checksum ++ (payload ++ rest))) = .stop (some fault) := by
  obtain ⟨hlen, hdrop, hstored, hcomputed⟩ := look_parts head checksum (payload ++ rest) hh hc
  have hoffset : kChecksumOffset = 12 := rfl
  have hlength : field (head ++ (checksum ++ (payload ++ rest))) 8 4 = payload.length := by
    rw [field_more _ _ 8 4 (by omega), hl]
  have hbody : payload.length ≤ (payload ++ rest).length := by simp
  simp only [look, hlen, hlength, hdrop, hstored, hcomputed, List.take_left' rfl, if_pos hne,
    if_neg (show ¬ kFrameHeaderBytes + (payload ++ rest).length < kFrameHeaderBytes by omega),
    if_neg (show ¬ kFrameHeaderBytes + (payload ++ rest).length <
      kFrameHeaderBytes + payload.length by omega)]
  split_ifs <;> exact ⟨_, rfl⟩

theorem checksumOf_head_ne (head payload : List UInt8) (i : Nat) (v : UInt8)
    (hh : head.length = kChecksumOffset) (hset : head.set i v ≠ head) :
    checksumOf (head.set i v) payload ≠ checksumOf head payload := by
  intro h
  rw [checksumOf, checksumOf, List.take_of_length_le (by simp [hh]),
    List.take_of_length_le (by omega)] at h
  have hcrc := foldl_crcByte_injective payload _ _ (UInt32.not_inj.mp h)
  exact crc32Update_set_ne 0 head i v hset (UInt32.not_inj.mp hcrc)

/-- A changed byte, of the lengths' apart, makes a frame no record. -/
theorem look_changed (r : Record) (rest : List UInt8) (j : Nat) (v : UInt8)
    (hl : r.payload.length ≤ kMaxPayloadBytes) (hplace : j < 8 ∨ 12 ≤ j)
    (hset : (frame r).set j v ≠ frame r) :
    ∃ fault, look ((frame r).set j v ++ rest) = .stop (some fault) := by
  have hhead := headerFields_length r
  have hlen : field (headerFields r) 8 4 = r.payload.length := by
    simpa using field_length r [] hl
  let sum := leBytes 4 (checksumOf (headerFields r) r.payload).toNat
  have hsum : sum.length = 4 := leBytes_length 4 _
  have hvalue : leNat sum = (checksumOf (headerFields r) r.payload).toNat :=
    leNat_leBytes_of_lt 4 _ (checksumOf (headerFields r) r.payload).toNat_lt
  have hframe : frame r = headerFields r ++ (sum ++ r.payload) := rfl
  have hoffset : kChecksumOffset = 12 := rfl
  rw [hframe] at hset ⊢
  by_cases hfields : j < 12
  · rw [List.set_append_left _ _ (by omega)] at hset ⊢
    rw [List.append_assoc, List.append_assoc]
    refine look_mismatch _ sum r.payload rest (by simp [hhead]) hsum ?_ ?_
    · rw [← hlen, field, field, List.drop_set_of_lt (by omega)]
    · rw [hvalue, ne_eq, UInt32.toNat_inj]
      exact (checksumOf_head_ne _ _ j v hhead fun h => hset (by rw [h])).symm
  · rw [List.set_append_right _ _ (by omega)] at hset ⊢
    by_cases hstored : j < 16
    · rw [List.set_append_left _ _ (by omega)] at hset ⊢
      rw [List.append_assoc, List.append_assoc]
      refine look_mismatch _ _ r.payload rest hhead (by simp [hsum]) hlen ?_
      intro h
      have hsame := leNat_inj _ sum (by simp) (h.trans hvalue.symm)
      exact hset (by rw [hsame])
    · rw [List.set_append_right _ _ (by omega)] at hset ⊢
      rw [List.append_assoc, List.append_assoc]
      refine look_mismatch _ sum _ rest hhead hsum (by simp [hlen]) ?_
      rw [hvalue, ne_eq, UInt32.toNat_inj]
      exact (crc32Update_set_ne _ _ _ v fun h => hset (by rw [h])).symm

inductive Use
  | feed (bytes : List UInt8) | next | finish

def RecordReader.use (r : RecordReader) : Use → RecordReader
  | .feed bytes => r.feed bytes
  | .next => r.next.2
  | .finish => r.finish.2

theorem use_fault (r : RecordReader) (fault : FrameError) (use : Use)
    (h : r.fault = some fault) : (r.use use).fault = some fault := by
  cases use with
  | feed bytes => exact h
  | next => simp [RecordReader.use, RecordReader.next, h]
  | finish => simp [RecordReader.use, RecordReader.finish, h]

theorem uses_fault (uses : List Use) (r : RecordReader) (fault : FrameError)
    (h : r.fault = some fault) : (uses.foldl RecordReader.use r).fault = some fault := by
  induction uses generalizing r with
  | nil => exact h
  | cons use uses ih => exact ih _ (use_fault r fault use h)

theorem next_error (r r' : RecordReader) (fault : FrameError)
    (h : r.next = (.error fault, r')) : r'.fault = some fault := by
  rw [RecordReader.next] at h
  split at h
  · cases h
    assumption
  · split at h <;> cases h
    rfl

/-- A byte changed outside the lengths costs the records from its frame on, and no other; and a
reader that has met a fault answers nothing else. -/
theorem frame_faults_are_found_and_final :
    (∀ (before after : List Record) (r : Record) (j : Nat) (v : UInt8)
        (chunks : List (List UInt8)),
      (∀ r' ∈ before ++ r :: after, r'.payload.length ≤ kMaxPayloadBytes) →
      j < (frame r).length → v ≠ (frame r).getD j 0 → j < 8 ∨ 12 ≤ j →
      chunks.flatten =
        ((before ++ r :: after).flatMap frame).set ((before.flatMap frame).length + j) v →
      ∃ fault reader, RecordReader.receive {} chunks = (before, some fault, reader) ∧
        reader.fault = some fault) ∧
    ∀ (r r' : RecordReader) (fault : FrameError) (uses : List Use),
      r.next = (.error fault, r') →
      (uses.foldl RecordReader.use r').next.1 = .error fault ∧
        (uses.foldl RecordReader.use r').finish.1 = .error fault := by
  refine ⟨?_, ?_⟩
  · intro before after r j v chunks hfit hj hv hplace hbytes
    obtain ⟨fault, hlook⟩ := look_changed r (after.flatMap frame) j v (hfit r (by simp)) hplace
      (set_ne_self _ j v hj hv)
    have hchanged : Reads look chunks.flatten (before ++ []) (some fault)
        ((frame r).set j v ++ after.flatMap frame) := by
      rw [hbytes, List.flatMap_append, List.flatMap_cons,
        List.set_append_right _ _ (Nat.le_add_right _ _), Nat.add_sub_cancel_left,
        List.set_append_left _ _ hj]
      exact .flatMap (fun r' hr' rest => look_frame r' rest (hfit r' (by simp [hr']))) (.stop hlook)
    obtain ⟨records, ending, reader, left, hreceive, h, hfault, -⟩ := receive_reads chunks [] rfl
    obtain ⟨rfl, rfl, -⟩ := h.unique hchanged
    rw [List.append_nil] at hreceive
    exact ⟨fault, reader, hreceive, hfault⟩
  · intro r r' fault uses h
    have hfault := uses_fault uses r' fault (next_error r r' fault h)
    simp [RecordReader.next, RecordReader.finish, hfault]

end LoadForge.Ipc
