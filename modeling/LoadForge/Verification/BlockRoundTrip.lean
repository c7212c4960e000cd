import LoadForge.Framework.Framing
import LoadForge.Verification.BlockDecoder
import LoadForge.Workloads.MatchFinding

namespace LoadForge.Verification.Compression

open Framework Framework.Lz4 List

namespace Decoder

def skip (d : Decoder) (count : Nat) : Decoder := { d with next := d.next + count }

/-- The decoder has come to these bytes, the last of its block. -/
def At (d : Decoder) (rest : List UInt8) : Prop :=
  ∃ front, d.block = front ++ rest ∧ d.next = front.length

variable {d : Decoder} {rest : List UInt8}

theorem At.advance {bytes : List UInt8} (h : d.At (bytes ++ rest)) : (d.skip bytes.length).At rest := by
  obtain ⟨front, hblock, hnext⟩ := h
  refine ⟨front ++ bytes, ?_, ?_⟩
  · rw [append_assoc]
    exact hblock
  · show d.next + bytes.length = (front ++ bytes).length
    rw [hnext, length_append]

theorem At.tail {b : UInt8} (h : d.At (b :: rest)) : (d.skip 1).At rest := by
  obtain ⟨front, hblock, hnext⟩ := h
  refine ⟨front ++ [b], ?_, ?_⟩
  · rw [append_assoc]
    exact hblock
  · show d.next + 1 = (front ++ [b]).length
    simp [hnext]

theorem At.drop (h : d.At rest) : d.block.drop d.next = rest := by
  obtain ⟨front, hblock, hnext⟩ := h
  rw [hblock, hnext, drop_left' rfl]

theorem At.room (h : d.At rest) : d.block.length - d.next = rest.length := by
  obtain ⟨front, hblock, hnext⟩ := h
  rw [hblock, hnext, length_append]
  omega

theorem At.ends_iff (h : d.At rest) : d.next = d.block.length ↔ rest = [] := by
  obtain ⟨front, hblock, hnext⟩ := h
  rw [hblock, hnext, length_append, ← length_eq_zero_iff]
  omega

theorem At.get {b : UInt8} (h : d.At (b :: rest)) : d.block[d.next]? = some b := by
  obtain ⟨front, hblock, hnext⟩ := h
  rw [hblock, hnext, getElem?_append_right (Nat.le_refl _), Nat.sub_self]
  rfl

theorem extend_extension (value : Nat) (d : Decoder) (length : Nat) (rest : List UInt8)
    (h : d.At (extension value ++ rest)) (hl : length + value < 2 ^ 64) :
    d.extend (d.block.length - d.next) length =
      .ok (d.skip (extension value).length, length + value, true) := by
  induction value using Nat.strongRecOn generalizing d length with
  | ind value ih =>
    have hroom := h.room
    by_cases hmore : 255 ≤ value
    · rw [extension_of_le value hmore, cons_append] at h
      have hget := h.get
      have hnext : (d.skip 1).At (extension (value - 255) ++ rest) := h.tail
      have hsum : (length + (255 : UInt8).toNat) % 2 ^ 64 = length + 255 :=
        Nat.mod_eq_of_lt (by show length + 255 < 2 ^ 64; omega)
      have hfrom := ih (value - 255) (by omega) (d.skip 1) (length + 255) hnext (by omega)
      have hrest : (d.skip 1).block.length - (d.skip 1).next =
          (extension (value - 255) ++ rest).length := hnext.room
      rw [hrest] at hfrom
      rw [hroom, extension_of_le value hmore, cons_append, length_cons, extend, hget]
      simp only [hsum, kMoreMark, ne_eq, not_true_eq_false, if_false]
      show (d.skip 1).extend _ _ = _
      rw [hfrom, length_cons]
      have htotal : length + 255 + (value - 255) = length + value := by omega
      have hskip : (d.skip 1).skip (extension (value - 255)).length =
          d.skip ((extension (value - 255)).length + 1) := by
        simp only [skip]
        rw [Nat.add_assoc, Nat.add_comm 1]
      rw [htotal, hskip]
    · have hlt : value < 255 := by omega
      rw [extension_of_lt value hlt] at h hroom ⊢
      have hget := h.get
      have hbyte : (UInt8.ofNat value).toNat = value := by
        rw [UInt8.toNat_ofNat']
        omega
      have hne : UInt8.ofNat value ≠ kMoreMark := by
        intro heq
        have hnat := congrArg UInt8.toNat heq
        rw [hbyte] at hnat
        have hmark : kMoreMark.toNat = 255 := rfl
        omega
      rw [hroom, cons_append, length_cons, extend, hget]
      simp only [hbyte, Nat.mod_eq_of_lt hl, if_pos hne]
      rfl

theorem lengthOf_extra (d : Decoder) (length base : Nat) (rest : List UInt8)
    (h : d.At (extra length ++ rest)) (hl : length + base < 2 ^ 64) :
    d.lengthOf (min length 15) (min length 15 + base) =
      .ok (d.skip (extra length).length, length + base, true) := by
  rw [lengthOf, kRunMark]
  by_cases hlong : 15 ≤ length
  · rw [extra, if_pos hlong] at h ⊢
    have hmin : min length 15 = 15 := by omega
    have hsum : 15 + base + (length - 15) = length + base := by omega
    rw [hmin, if_pos rfl, extend_extension (length - 15) d (15 + base) rest h (by omega), hsum]
  · have hmin : min length 15 = length := by omega
    rw [hmin, if_neg (by omega), extra, if_neg hlong]
    rfl

theorem literals_spec (d : Decoder) (bytes rest : List UInt8)
    (h : d.At (extra bytes.length ++ (bytes ++ rest))) (hl : bytes.length < 2 ^ 64)
    (hr : d.decoded.used + bytes.length ≤ d.decoded.buffer.length) :
    ∃ d', d.literals (min bytes.length 15) = .ok d' ∧ d'.At rest ∧
      d.decoded.Wrote bytes d'.decoded := by
  have hlength := lengthOf_extra d bytes.length 0 _ h (by omega)
  rw [Nat.add_zero, Nat.add_zero] at hlength
  have hat := h.advance
  obtain ⟨decoded, hputs, hwrote⟩ := d.decoded.puts_wrote bytes hr
  have hroom := hat.room
  have hdrop := hat.drop
  have henough : ¬ (d.skip (extra bytes.length).length).block.length -
      (d.skip (extra bytes.length).length).next < bytes.length := by
    rw [hroom, length_append]
    omega
  have hfits : ¬ (d.skip (extra bytes.length).length).decoded.buffer.length -
      (d.skip (extra bytes.length).length).decoded.used < bytes.length := by
    show ¬ d.decoded.buffer.length - d.decoded.used < bytes.length
    omega
  refine ⟨(d.skip (extra bytes.length).length).copied bytes.length decoded, ?_, hat.advance, hwrote⟩
  have hput : (d.skip (extra bytes.length).length).decoded.puts bytes = some decoded := hputs
  simp only [literals, hlength, if_neg henough, if_neg hfits, hdrop, take_left' rfl, hput]

theorem copyMatch_spec (offset count : Nat) (o : Output UInt8) (ho : 1 ≤ offset)
    (hi : offset ≤ o.used) (hr : o.used + count ≤ o.buffer.length) :
    ∃ o', copyMatch offset count o = some o' ∧ o'.written = copyBack offset count o.written ∧
      o'.used = o.used + count ∧ o'.buffer.length = o.buffer.length := by
  induction count generalizing o with
  | zero => exact ⟨o, rfl, rfl, rfl, rfl⟩
  | succ count ih =>
    have hlen : o.written.length = o.used := by
      rw [Output.written, length_take]
      omega
    have hin : o.used - offset < o.buffer.length := by omega
    have hvalue : o.written.getD (o.written.length - offset) 0 = o.buffer[o.used - offset] := by
      rw [hlen, Output.written, getD_eq_getElem?_getD, getElem?_take_of_lt (by omega),
        getElem?_eq_getElem hin]
      rfl
    obtain ⟨o', hput, hwrote⟩ := o.put_wrote o.buffer[o.used - offset] (by omega)
    have hused : o'.used = o.used + 1 := hwrote.used
    have hsize := hwrote.size
    obtain ⟨o'', hcopy, hwritten, hused', hsize'⟩ := ih o' (by omega) (by omega)
    refine ⟨o'', ?_, ?_, by omega, hsize'.trans hsize⟩
    · rw [copyMatch, getElem?_eq_getElem hin, Option.bind_some, hput, Option.bind_some, hcopy]
    · rw [hwritten, hwrote.written, copyBack, hvalue]

theorem offset_read (offset : Nat) (h : offset ≤ 65535) :
    (UInt8.ofNat (offset % 256)).toNat ||| (UInt8.ofNat (offset / 256)).toNat <<< 8 = offset := by
  have hlow : (UInt8.ofNat (offset % 256)).toNat = offset % 256 := by
    rw [UInt8.toNat_ofNat']
    omega
  have hhigh : (UInt8.ofNat (offset / 256)).toNat = offset / 256 := by
    rw [UInt8.toNat_ofNat']
    omega
  have hor := Nat.shiftLeft_add_eq_or_of_lt (show offset % 256 < 2 ^ 8 by omega) (offset / 256)
  rw [hlow, hhigh, Nat.or_comm, ← hor, Nat.shiftLeft_eq]
  omega

theorem matchOf_spec (d : Decoder) (s : Sequence) (rest : List UInt8)
    (h : d.At (offsetBytes s.offset ++ (extra (s.length - 4) ++ rest)))
    (hk : s.Keeps d.decoded.buffer.length d.decoded.used) (hs : s.length < 2 ^ 64) :
    ∃ d', d.matchOf (min (s.length - 4) 15) = .ok d' ∧ d'.At rest ∧
      d'.decoded.written = copyBack s.offset s.length d.decoded.written ∧
      d'.decoded.used = d.decoded.used + s.length ∧
      d'.decoded.buffer.length = d.decoded.buffer.length := by
  obtain ⟨hpositive, htwo, hinside, hleast, hearly, hclear⟩ := hk
  have hlow : d.block[d.next]? = some (UInt8.ofNat (s.offset % 256)) := h.get
  have hhigh : d.block[d.next + 1]? = some (UInt8.ofNat (s.offset / 256)) := (At.tail h).get
  have hread : (d.skip 2).At (extra (s.length - 4) ++ rest) := h.advance
  have hlength := lengthOf_extra (d.skip 2) (s.length - 4) 4 rest hread (by omega)
  have hsum : s.length - 4 + 4 = s.length := by omega
  rw [hsum] at hlength
  have hroom : ¬ d.block.length - d.next < 2 := by
    rw [h.room, length_append, offsetBytes, length_cons, length_singleton]
    omega
  obtain ⟨decoded, hcopy, hwritten, hused, hsize⟩ := copyMatch_spec s.offset s.length d.decoded
    hpositive hinside (by omega)
  let read := (d.skip 2).skip (extra (s.length - 4)).length
  have hrepeat : read.repeatMatch d.next s.offset s.length =
      .ok (read.matched s.offset s.length decoded) := by
    have hsame : read.decoded = d.decoded := rfl
    rw [repeatMatch, hsame, if_neg (by rw [kMatchStartLimit]; omega),
      if_neg (by rw [kLastLiterals]; omega), hcopy]
  refine ⟨read.matched s.offset s.length decoded, ?_, hread.advance, hwritten, hused, hsize⟩
  rw [matchOf, if_neg hroom, hlow, hhigh]
  simp only [offset_read s.offset htwo]
  rw [if_neg (by omega), if_neg (Nat.not_lt.mpr hinside), kMinMatch]
  rw [skip] at hlength
  rw [hlength]
  exact hrepeat

/-- The token of a sequence and its literals: what is left is its end, or its match. -/
theorem run_token (d : Decoder) (rounds code : Nat) (literals rest : List UInt8)
    (h : d.At (token literals.length code :: (extra literals.length ++ (literals ++ rest))))
    (hl : literals.length < 2 ^ 64)
    (hr : d.decoded.used + literals.length ≤ d.decoded.buffer.length) :
    ∃ d' : Decoder, d'.At rest ∧ d.decoded.Wrote literals d'.decoded ∧
      (d'.next = d'.block.length →
        d.run (rounds + 1) = d'.last d.next (token literals.length code).toNat) ∧
      ∀ d'', d'.next ≠ d'.block.length → d'.matchOf (min code 15) = .ok d'' →
        d.run (rounds + 1) = d''.run rounds := by
  have hget := h.get
  have hopen : d.next ≠ d.block.length := fun hend => cons_ne_nil _ _ (h.ends_iff.mp hend)
  obtain ⟨hfield, hcode⟩ := token_fields literals.length code
  obtain ⟨d', hliterals, hat, hwrote⟩ := literals_spec (d.skip 1) literals rest h.tail hl hr
  have hskip : ({ d with next := d.next + 1 } : Decoder).literals (min literals.length 15) = .ok d' :=
    hliterals
  refine ⟨d', hat, hwrote, ?_, ?_⟩
  · intro hend
    rw [run, if_neg hopen, hget]
    simp only [hfield, hskip, if_pos hend]
  · intro d'' hgoes hmatch
    rw [run, if_neg hopen, hget]
    simp only [hfield, hcode, hskip, if_neg hgoes, hmatch]

theorem run_lastBytes (d : Decoder) (rounds : Nat) (final : List UInt8) (h : d.At (lastBytes final))
    (hs : final.length < 2 ^ 64)
    (hfinal : d.decoded.used + final.length = d.decoded.buffer.length) :
    ∃ summary, d.run (rounds + 1) = .ok (summary, d.decoded.written ++ final) := by
  have hcode := (token_fields final.length 0).2
  have hbytes : lastBytes final = token final.length 0 :: (extra final.length ++ (final ++ [])) := by
    rw [append_nil, lastBytes]
  rw [hbytes] at h
  obtain ⟨d', hat, hwrote, hrun, -⟩ := run_token d rounds 0 final [] h hs (Nat.le_of_eq hfinal)
  have hend : d'.next = d'.block.length := hat.ends_iff.mpr rfl
  have hfull : d'.decoded.used = d'.decoded.buffer.length := by
    rw [hwrote.used, hwrote.size]
    exact hfinal
  have hbuffer : d'.decoded.buffer = d.decoded.written ++ final := by
    have hwritten := hwrote.written
    rw [Output.written, hfull, take_length] at hwritten
    exact hwritten
  refine ⟨d'.summary, ?_⟩
  rw [hrun hend, last, hcode, if_neg (by simp), if_neg (not_not_intro hfull), hbuffer]

theorem run_blockBytes (sequences : List Sequence) (final : List UInt8) (d : Decoder) (rounds : Nat)
    (h : d.At (blockBytes sequences final)) (hr : sequences.length < rounds)
    (hu : d.decoded.used ≤ d.decoded.buffer.length) (hs : ∀ s ∈ sequences, s.InWords)
    (hf : final.length < 2 ^ 64)
    (hw : WellFormed d.decoded.buffer.length d.decoded.used sequences)
    (hd : (denote d.decoded.written sequences ++ final).length = d.decoded.buffer.length) :
    ∃ summary, d.run rounds = .ok (summary, denote d.decoded.written sequences ++ final) := by
  induction sequences generalizing d rounds with
  | nil =>
    obtain ⟨rounds, rfl⟩ : ∃ more, rounds = more + 1 := ⟨rounds - 1, by simp at hr; omega⟩
    have hlen : d.decoded.written.length = d.decoded.used := by
      rw [Output.written, length_take]
      omega
    have hfinal : d.decoded.used + final.length = d.decoded.buffer.length := by
      rw [← hd, denote, length_append, hlen]
    exact run_lastBytes d rounds final h hf hfinal
  | cons s more ih =>
    obtain ⟨rounds, rfl⟩ : ∃ fewer, rounds = fewer + 1 := ⟨rounds - 1, by simp at hr; omega⟩
    obtain ⟨hkeeps, hmore⟩ := hw
    have hclear := hkeeps.clear
    have hbytes : blockBytes (s :: more) final = token s.literals.length (s.length - 4) ::
        (extra s.literals.length ++ (s.literals ++
          (offsetBytes s.offset ++ (extra (s.length - 4) ++ blockBytes more final)))) := by
      simp only [blockBytes, flatMap_cons, Sequence.bytes, cons_append, append_assoc]
    rw [hbytes] at h
    have hwords := hs s (by simp)
    obtain ⟨d', hat, hwrote, -, hrun⟩ := run_token d rounds _ s.literals _ h hwords.literals (by omega)
    have hused : d'.decoded.used = d.decoded.used + s.literals.length := hwrote.used
    have hsize : d'.decoded.buffer.length = d.decoded.buffer.length := hwrote.size
    have hwritten : d'.decoded.written = d.decoded.written ++ s.literals := hwrote.written
    have hgoes : d'.next ≠ d'.block.length := fun hend => cons_ne_nil _ _ (hat.ends_iff.mp hend)
    obtain ⟨d'', hmatch, hat', hwritten', hused', hsize'⟩ := matchOf_spec d' s _ hat
      (by rw [hsize, hused]; exact hkeeps) hwords.length
    have hdenoted : denote d''.decoded.written more = denote d.decoded.written (s :: more) := by
      rw [hwritten', hwritten]
      rfl
    obtain ⟨summary, hrest⟩ := ih d'' rounds hat' (by simp at hr; omega) (by omega)
      (fun t ht => hs t (by simp [ht])) (by rw [hsize', hsize, hused', hused]; exact hmore)
      (by rw [hdenoted, hsize', hsize]; exact hd)
    refine ⟨summary, ?_⟩
    rw [hrun d'' hgoes hmatch, ← hdenoted]
    exact hrest

end Decoder

theorem bytes_ne_nil (s : Sequence) : s.bytes ≠ [] := cons_ne_nil _ _

theorem decodeBlock_blockBytes (sequences : List Sequence) (final decoded : List UInt8)
    (hs : ∀ s ∈ sequences, s.InWords) (hf : final.length < 2 ^ 64) (hw : WellFormed decoded.length 0 sequences)
    (hd : (denote [] sequences ++ final).length = decoded.length) :
    ∃ summary, decodeBlock (blockBytes sequences final) decoded =
      .ok (summary, denote [] sequences ++ final) := by
  have hrounds := length_le_flatMap bytes_ne_nil sequences
  apply Decoder.run_blockBytes sequences final { block := blockBytes sequences final, decoded := ⟨decoded, 0⟩ }
  · exact ⟨[], rfl, rfl⟩
  · rw [blockBytes, length_append]
    omega
  · exact Nat.zero_le _
  · exact hs
  · exact hf
  · exact hw
  · exact hd

section RoundTrip

open Workloads.Compression

/-- The compressor ends within its input with sequences that keep the rules and decode to it. -/
def RoundTrips (input block decoded : List UInt8) (table : Table) : Prop :=
  ∃ written table', compressBlock input block table = some (written, table') ∧
    (∃ sequences final, written.buffer.take written.used = blockBytes sequences final ∧
      WellFormed input.length 0 sequences) ∧
    ∃ summary, decodeBlock (written.buffer.take written.used) decoded = .ok (summary, input)

/-- For every input of fewer than 2^32 bytes, whatever the buffers and the table held. -/
theorem compressed_block_decodes (input block decoded : List UInt8) (table : Table)
    (hn : input.length < 2 ^ 32) (hb : compressBound input.length ≤ block.length)
    (hd : decoded.length = input.length) : RoundTrips input block decoded table := by
  obtain ⟨written, table', sequences, final, hcompressed, hwrote, -, hwellFormed, hdenoted⟩ :=
    compressBlock_spec input block table hb
  have hbytes := hwrote.fresh
  have hwords := wellFormed_inWords input.length 0 sequences hwellFormed (by omega)
  have hlength := congrArg length hdenoted
  rw [length_append] at hlength
  obtain ⟨summary, hdecoded⟩ := decodeBlock_blockBytes sequences final decoded hwords (by omega)
    (by rw [hd]; exact hwellFormed) (by rw [hdenoted, hd])
  rw [hdenoted] at hdecoded
  refine ⟨written, table', hcompressed, ⟨sequences, final, hbytes, hwellFormed⟩, summary, ?_⟩
  rw [hbytes]
  exact hdecoded

theorem repeated_bytes_decode :
    RoundTrips (List.replicate 40 7) (List.replicate 60 9) (List.replicate 40 1) (fun _ => 3) :=
  compressed_block_decodes _ _ _ _ (by decide) (by decide) (by decide)

end RoundTrip

end LoadForge.Verification.Compression
