import LoadForge.Workloads.Compressor

namespace LoadForge.Workloads.Compression

open Framework Framework.Lz4 List Option

theorem loadLe32_isSome (bytes : List UInt8) (index : Nat) (h : index + 4 ≤ bytes.length) :
    ∃ word, loadLe32 bytes index = some word := by
  have h0 : index < bytes.length := by omega
  have h1 : index + 1 < bytes.length := by omega
  have h2 : index + 2 < bytes.length := by omega
  have h3 : index + 3 < bytes.length := by omega
  refine ⟨UInt32.ofNat (leNat [bytes[index], bytes[index + 1], bytes[index + 2], bytes[index + 3]]), ?_⟩
  simp only [loadLe32, getElem?_eq_getElem h0, getElem?_eq_getElem h1,
    getElem?_eq_getElem h2, getElem?_eq_getElem h3]
  rfl

theorem loadLe32_bytes (bytes : List UInt8) (index : Nat) (word : UInt32)
    (h : loadLe32 bytes index = some word) :
    ∃ b0 b1 b2 b3, bytes[index]? = some b0 ∧ bytes[index + 1]? = some b1 ∧
      bytes[index + 2]? = some b2 ∧ bytes[index + 3]? = some b3 ∧
      word.toNat = leNat [b0, b1, b2, b3] := by
  simp only [loadLe32, bind_eq_bind, bind_eq_some_iff] at h
  obtain ⟨b0, h0, b1, h1, b2, h2, b3, h3, hword⟩ := h
  refine ⟨b0, b1, b2, b3, h0, h1, h2, h3, ?_⟩
  have hlt : leNat [b0, b1, b2, b3] < 256 ^ 4 := leNat_lt [b0, b1, b2, b3]
  have hmod : leNat [b0, b1, b2, b3] % 2 ^ 32 = leNat [b0, b1, b2, b3] :=
    Nat.mod_eq_of_lt (by omega)
  rw [← some.inj hword, UInt32.toNat_ofNat', hmod]

theorem loadLe32_same (bytes : List UInt8) (i j : Nat) (word : UInt32)
    (hi : loadLe32 bytes i = some word) (hj : loadLe32 bytes j = some word) :
    ∀ k < 4, bytes[i + k]? = bytes[j + k]? := by
  obtain ⟨b0, b1, b2, b3, h0, h1, h2, h3, hword⟩ := loadLe32_bytes bytes i word hi
  obtain ⟨c0, c1, c2, c3, g0, g1, g2, g3, hword'⟩ := loadLe32_bytes bytes j word hj
  have hsame := leNat_inj [b0, b1, b2, b3] [c0, c1, c2, c3] rfl (hword.symm.trans hword')
  cases hsame
  intro k hk
  match k, hk with
  | 0, _ => simp [h0, g0]
  | 1, _ => rw [h1, g1]
  | 2, _ => rw [h2, g2]
  | 3, _ => rw [h3, g3]

theorem extendMatch_spec (input : List UInt8) (candidate position room length : Nat)
    (hc : candidate ≤ position) (hl : position + length + room ≤ input.length)
    (hm : ∀ k < length, input[candidate + k]? = input[position + k]?) :
    ∃ found, extendMatch input candidate position room length = some found ∧ length ≤ found ∧
      found ≤ length + room ∧ ∀ k < found, input[candidate + k]? = input[position + k]? := by
  induction room generalizing length with
  | zero => exact ⟨length, rfl, Nat.le_refl _, Nat.le_refl _, hm⟩
  | succ room ih =>
    have hthere : candidate + length < input.length := by omega
    have hhere : position + length < input.length := by omega
    simp only [extendMatch, getElem?_eq_getElem hthere, getElem?_eq_getElem hhere,
      bind_eq_bind, bind_some]
    split_ifs with hsame
    · obtain ⟨found, hfound, hle, hroom, hall⟩ := ih (length + 1) (by omega) (by
        intro k hk
        by_cases hlast : k = length
        · rw [hlast, getElem?_eq_getElem hthere, getElem?_eq_getElem hhere, hsame]
        · exact hm k (by omega))
      exact ⟨found, hfound, by omega, by omega, hall⟩
    · exact ⟨length, rfl, Nat.le_refl _, by omega, hm⟩

/-- The block holds sequences that keep the rules and stand for the input up to the anchor. -/
structure Finding (input block : List UInt8) (f : Finder) (sequences : List Sequence) : Prop where
  wrote : Output.Wrote ⟨block, 0⟩ (sequences.flatMap Sequence.bytes) f.block
  denoted : denote [] sequences = input.take f.anchor
  wellFormed : WellFormed input.length 0 sequences
  behind : f.anchor ≤ f.position
  within : f.position ≤ input.length

variable {input block : List UInt8} {f : Finder} {sequences : List Sequence}

section

variable (h : Finding input block f sequences)
include h

theorem Finding.anchor_le : f.anchor ≤ input.length :=
  Nat.le_trans h.behind h.within

omit h in
theorem flatMap_length_le (input : List UInt8) (sequences : List Sequence) (anchor : Nat)
    (hd : denote [] sequences = input.take anchor) (hw : WellFormed input.length 0 sequences)
    (ha : anchor ≤ input.length) :
    (sequences.flatMap Sequence.bytes).length ≤ anchor + anchor / 255 := by
  have hcost := flatMap_bytes_length_le input.length [] sequences hw
  rw [hd, length_take, Nat.min_eq_left ha] at hcost
  simpa using hcost

theorem Finding.skip (table : Table)
    (hp : f.position < input.length) : Finding input block (f.skip table) sequences :=
  ⟨h.wrote, h.denoted, h.wellFormed, Nat.le_succ_of_le h.behind, hp⟩

theorem Finding.take (table : Table) (candidate length : Nat)
    (hc : candidate < f.position) (ho : f.position - candidate ≤ kMaxOffset)
    (hl : kMinMatch ≤ length) (he : f.position + kMatchFindLimit ≤ input.length)
    (hr : f.position + length + kLastLiterals ≤ input.length)
    (hm : ∀ k < length, input[candidate + k]? = input[f.position + k]?)
    (hb : compressBound input.length ≤ block.length) :
    ∃ f' sequences', f.take table input candidate length = some f' ∧
      Finding input block f' sequences' ∧ f.position < f'.position := by
  simp only [kMaxOffset, kMinMatch, kMatchFindLimit, kLastLiterals, compressBound] at ho hl he hr hb
  have hbehind := h.behind
  let s : Sequence := ⟨(input.drop f.anchor).take (f.position - f.anchor), f.position - candidate, length⟩
  have hliterals : s.literals.length = f.position - f.anchor := by
    simp [s]
    omega
  have hstart : f.anchor + s.literals.length = f.position := by omega
  have hbefore : input.take f.anchor ++ s.literals = input.take f.position := by
    have hsplit := take_add (l := input) (i := f.anchor) (j := f.position - f.anchor)
    rw [Nat.add_sub_cancel' hbehind] at hsplit
    exact hsplit.symm
  have hkeeps : s.Keeps input.length f.position :=
    ⟨by simp only [s]; omega, by simp only [s]; omega, by simp only [s]; omega, hl, he, by
      simp only [s]
      omega⟩
  have hdenoted : denote [] (sequences ++ [s]) = input.take (f.position + length) := by
    rw [denote_append, h.denoted]
    show copyBack s.offset s.length (input.take f.anchor ++ s.literals) = _
    rw [hbefore]
    refine copyBack_take input f.position s.offset s.length hkeeps.positive hkeeps.inside
      (by simp only [s]; omega) ?_
    intro k hk
    have hback : f.position - s.offset = candidate := by
      simp only [s]
      omega
    rw [hback]
    exact hm k hk
  have hwellFormed : WellFormed input.length 0 (sequences ++ [s]) := by
    refine wellFormed_append input.length [] sequences [s] h.wellFormed ⟨?_, trivial⟩
    rw [h.denoted, length_take, Nat.min_eq_left h.anchor_le, hstart]
    exact hkeeps
  have hcost := flatMap_length_le input (sequences ++ [s]) (f.position + length) hdenoted
    hwellFormed (by omega)
  rw [flatMap_append, flatMap_singleton, length_append] at hcost
  have hused : f.block.used = (sequences.flatMap Sequence.bytes).length := by
    rw [h.wrote.used, Nat.zero_add]
  have hsize : f.block.buffer.length = block.length := h.wrote.size
  obtain ⟨block', hputs, hwrote⟩ := f.block.puts_wrote s.bytes (by omega)
  refine ⟨⟨block', table, f.position + length, f.position + length⟩, sequences ++ [s], ?_, ?_, ?_⟩
  · have hwrite := writeSequence_match f.block s hl
    rw [hputs] at hwrite
    rw [Finder.take]
    rw [hwrite]
    rfl
  · refine ⟨?_, hdenoted, hwellFormed, Nat.le_refl _, ?_⟩
    · rw [flatMap_append, flatMap_singleton]
      exact h.wrote.trans hwrote
    · show f.position + length ≤ input.length
      omega
  · show f.position < f.position + length
    omega

theorem round_spec (hp : f.position + kMatchFindLimit ≤ input.length)
    (hb : compressBound input.length ≤ block.length) :
    ∃ f' sequences', f.round input = some f' ∧ Finding input block f' sequences' ∧
      f.position < f'.position := by
  have hlimit : kMatchFindLimit = 12 := rfl
  have hleast : kMinMatch = 4 := rfl
  have hlast : kLastLiterals = 5 := rfl
  obtain ⟨fourBytes, hhere⟩ := loadLe32_isSome input f.position (by omega)
  have hskip : ∀ table, ∃ f' sequences', some (f.skip table) = some f' ∧
      Finding input block f' sequences' ∧ f.position < f'.position :=
    fun table => ⟨f.skip table, sequences, rfl, h.skip table (by omega), Nat.lt_succ_self _⟩
  simp only [Finder.round, hhere, bind_eq_bind, bind_some]
  split_ifs with hnear
  · obtain ⟨there, hthere⟩ := loadLe32_isSome input (f.table (hashSlot fourBytes)).toNat (by omega)
    simp only [hthere, bind_some]
    split_ifs with hsame
    · rw [hsame] at hthere
      have hfour := loadLe32_same input _ f.position fourBytes hthere hhere
      obtain ⟨length, hfound, hle, hroom, hall⟩ := extendMatch_spec input
        (f.table (hashSlot fourBytes)).toNat f.position
        (input.length - kLastLiterals - (f.position + kMinMatch)) kMinMatch
        (Nat.le_of_lt hnear.1) (by omega) hfour
      simp only [hfound, bind_some]
      exact h.take _ _ length hnear.1 hnear.2 hle hp (by omega) hall hb
    · exact hskip _
  · exact hskip _

end

theorem loop_spec (lastStart rounds : Nat) (hs : lastStart + kMatchFindLimit = input.length)
    (hb : compressBound input.length ≤ block.length) (f : Finder) (sequences : List Sequence)
    (h : Finding input block f sequences) :
    ∃ f' sequences', f.loop input lastStart rounds = some f' ∧
      Finding input block f' sequences' ∧
      (lastStart < f'.position ∨ f.position + rounds ≤ f'.position) := by
  induction rounds generalizing f sequences with
  | zero => exact ⟨f, sequences, rfl, h, Or.inr (Nat.le_refl _)⟩
  | succ rounds ih =>
    rw [Finder.loop]
    split_ifs with hgo
    · obtain ⟨f', sequences', hround, hfinding, hmoved⟩ := round_spec h (by omega) hb
      obtain ⟨f'', sequences'', hloop, hlater, hend⟩ := ih f' sequences' hfinding
      refine ⟨f'', sequences'', ?_, hlater, ?_⟩
      · rw [hround]
        exact hloop
      · rcases hend with hpast | hrounds
        · exact Or.inl hpast
        · exact Or.inr (by omega)
    · exact ⟨f, sequences, rfl, h, Or.inl (Nat.lt_of_not_le hgo)⟩

section

variable (input block : List UInt8) (table : Table)

theorem finding_start : Finding input block ⟨⟨block, 0⟩, table, 0, 0⟩ [] :=
  ⟨.refl _, rfl, trivial, Nat.le_refl _, Nat.zero_le _⟩

theorem findMatches_spec (hb : compressBound input.length ≤ block.length) :
    ∃ f sequences, findMatches input block table = some f ∧ Finding input block f sequences := by
  rw [findMatches]
  split_ifs with hlong
  · obtain ⟨f, sequences, hloop, hfinding, -⟩ := loop_spec (input.length - kMatchFindLimit)
      (input.length - kMatchFindLimit + 1) (by omega) hb _ []
      (finding_start input block clearedTable)
    exact ⟨f, sequences, hloop, hfinding⟩
  · exact ⟨_, [], rfl, finding_start input block table⟩

/-- It reads inside the input, writes inside its bound, and writes sequences that stand for the
input. -/
theorem compressBlock_spec (hb : compressBound input.length ≤ block.length) :
    ∃ written table' sequences last, compressBlock input block table = some (written, table') ∧
      Output.Wrote ⟨block, 0⟩ (blockBytes sequences last) written ∧
      written.used ≤ compressBound input.length ∧
      WellFormed input.length 0 sequences ∧ denote [] sequences ++ last = input := by
  obtain ⟨f, sequences, hfound, h⟩ := findMatches_spec input block table hb
  have hcost := flatMap_length_le input sequences f.anchor h.denoted h.wellFormed h.anchor_le
  have hlast := lastBytes_length_le (input.drop f.anchor)
  have hanchor := h.anchor_le
  have hused : f.block.used = (sequences.flatMap Sequence.bytes).length := by
    rw [h.wrote.used, Nat.zero_add]
  have hsize : f.block.buffer.length = block.length := h.wrote.size
  rw [length_drop] at hlast
  have hbound : f.block.used + (lastBytes (input.drop f.anchor)).length ≤
      compressBound input.length := by
    rw [compressBound]
    omega
  obtain ⟨written, hputs, hwrote⟩ := f.block.puts_wrote (lastBytes (input.drop f.anchor)) (by omega)
  refine ⟨written, f.table, sequences, input.drop f.anchor, ?_, h.wrote.trans hwrote, ?_,
    h.wellFormed, ?_⟩
  · simp only [compressBlock, hfound, bind_eq_bind, bind_some, writeSequence_last, hputs]
    rfl
  · rw [hwrote.used]
    exact hbound
  · rw [h.denoted, take_append_drop]

end

theorem loop_ended (lastStart rounds more : Nat) (f f' : Finder)
    (h : f.loop input lastStart rounds = some f') (hend : lastStart < f'.position) :
    f.loop input lastStart (rounds + more) = some f' := by
  induction rounds generalizing f with
  | zero =>
    cases h
    cases more with
    | zero => rfl
    | succ more =>
      rw [Nat.zero_add, Finder.loop]
      exact if_neg (Nat.not_le_of_lt hend)
  | succ rounds ih =>
    rw [Nat.succ_add, Finder.loop]
    rw [Finder.loop] at h
    split_ifs at h ⊢ with hgo
    · cases hround : f.round input with
      | none => simp [hround] at h
      | some next =>
        rw [hround] at h
        exact ih next h
    · exact h

/-- The compressor writes at most its bound, to the front of the buffer, and its loop ends. -/
theorem compressor_stays_in_bound (input block : List UInt8) (table : Table)
    (hb : input.length + input.length / 255 + 16 ≤ block.length) :
    (∃ written table', compressBlock input block table = some (written, table') ∧
      written.used ≤ input.length + input.length / 255 + 16 ∧
      written.buffer.length = block.length ∧
      written.buffer.drop written.used = block.drop written.used) ∧
    (kMatchFindLimit < input.length →
      ∃ f, input.length - kMatchFindLimit < f.position ∧
        ∀ rounds, input.length - kMatchFindLimit < rounds →
          Finder.loop input (input.length - kMatchFindLimit) rounds
            ⟨⟨block, 0⟩, clearedTable, 0, 0⟩ = some f) := by
  constructor
  · obtain ⟨written, table', sequences, last, hblock, hwrote, hused, -, -⟩ :=
      compressBlock_spec input block table hb
    exact ⟨written, table', hblock, hused, hwrote.size, hwrote.beyond⟩
  · intro hlong
    obtain ⟨f, sequences, hfound, -, hend⟩ := loop_spec (input.length - kMatchFindLimit)
      (input.length - kMatchFindLimit + 1) (by omega) hb _ [] (finding_start input block clearedTable)
    have hpast : input.length - kMatchFindLimit < f.position := by omega
    refine ⟨f, hpast, fun rounds hrounds => ?_⟩
    have hsplit : rounds = input.length - kMatchFindLimit + 1 +
        (rounds - (input.length - kMatchFindLimit + 1)) := by omega
    rw [hsplit]
    exact loop_ended _ _ _ _ f hfound hpast

/-- From its second byte on the input is one match. -/
theorem repeated_byte_stays_in_bound :
    (∃ written table', compressBlock (List.replicate 30 7) (List.replicate 46 0) clearedTable =
      some (written, table') ∧ written.used ≤ 46) ∧
    ∃ f, 18 < f.position ∧ Finder.loop (List.replicate 30 7) 18 19
      ⟨⟨List.replicate 46 0, 0⟩, clearedTable, 0, 0⟩ = some f := by
  obtain ⟨⟨written, table', hblock, hused, -⟩, hloop⟩ :=
    compressor_stays_in_bound (replicate 30 7) (replicate 46 0) clearedTable (by decide)
  obtain ⟨f, hpast, hends⟩ := hloop (by decide)
  exact ⟨⟨written, table', hblock, hused⟩, f, hpast, hends 19 (by decide)⟩

end LoadForge.Workloads.Compression
