import LoadForge.Verification.BlockRoundTrip

namespace LoadForge.Verification.Compression

open Framework Framework.Lz4 List

/-- A refusal that names a broken rule: no access outside of a buffer, and no round too few. -/
def Refusal.IsMalformation (refusal : Refusal) : Prop :=
  ∃ malformation, refusal.fault = .malformed malformation

/-- The bytes are sequences of the format, and they stand for data of this size. -/
structure Grammar (block : List UInt8) (size : Nat) (sequences : List Sequence)
    (final : List UInt8) : Prop where
  bytes : block = blockBytes sequences final
  rules : WellFormed size 0 sequences
  size : (denote [] sequences ++ final).length = size

namespace Decoder

/-- Neither position is past the end of its buffer, so that what is left of it does not wrap. -/
structure Inside (d : Decoder) : Prop where
  block : d.next ≤ d.block.length
  decoded : d.decoded.used ≤ d.decoded.buffer.length

/-- Where the steps of a decoder can bring it, in whatever order they are taken. -/
inductive Comes (start : Decoder) : Decoder → Prop
  | start : Comes start start
  | token {d : Decoder} (h : Comes start d) (hopen : d.next ≠ d.block.length) :
    Comes start (d.skip 1)
  | length {d d' : Decoder} {field base total : Nat} {done : Bool} (h : Comes start d)
    (hf : field ≤ kRunMark) (hb : base = 0 ∨ base = kMinMatch)
    (hlength : d.lengthOf field (field + base) = .ok (d', total, done)) : Comes start d'
  | literals {d d' : Decoder} {field : Nat} (h : Comes start d) (hf : field ≤ kRunMark)
    (hliterals : d.literals field = .ok d') : Comes start d'
  | offset {d : Decoder} (h : Comes start d) (hroom : ¬ d.block.length - d.next < 2) :
    Comes start (d.skip 2)
  | matched {d d' : Decoder} {field : Nat} (h : Comes start d) (hf : field ≤ kRunMark)
    (hmatch : d.matchOf field = .ok d') : Comes start d'

def byteSum (bytes : List UInt8) : Nat := (bytes.map UInt8.toNat).sum

variable {d : Decoder}

theorem Inside.at_drop (h : d.Inside) : d.At (d.block.drop d.next) := by
  refine ⟨d.block.take d.next, (take_append_drop _ _).symm, ?_⟩
  rw [length_take, Nat.min_eq_left h.block]

theorem At.eq {rest rest' : List UInt8} (h : d.At rest) (h' : d.At rest') : rest = rest' :=
  h.drop.symm.trans h'.drop

theorem skip_skip (d : Decoder) (m n : Nat) : (d.skip m).skip n = d.skip (m + n) := by
  rw [skip, skip, skip, Nat.add_assoc]

/-- The extension bytes of a length are read one by one, and none of their sums wraps. -/
theorem extend_cases (room : Nat) (d : Decoder) (length : Nat)
    (hroom : d.next + room ≤ d.block.length) (hl : length + 255 * room < 2 ^ 64) :
    ∃ n done, n ≤ room ∧ d.extend room length =
        .ok (d.skip n, length + byteSum ((d.block.drop d.next).take n), done) ∧
      (done = true → (d.block.drop d.next).take n =
        extension (byteSum ((d.block.drop d.next).take n))) := by
  induction room generalizing d length with
  | zero =>
    refine ⟨0, false, Nat.le_refl _, ?_, ?_⟩
    · rw [extend, take_zero]
      rfl
    · intro hdone
      cases hdone
  | succ room ih =>
    have hin : d.next < d.block.length := by omega
    have hdrop : d.block.drop d.next = d.block[d.next] :: d.block.drop (d.next + 1) :=
      drop_eq_getElem_cons hin
    have hbyte := d.block[d.next].toNat_lt
    have hsum : (length + d.block[d.next].toNat) % 2 ^ 64 = length + d.block[d.next].toNat :=
      Nat.mod_eq_of_lt (by omega)
    rw [extend, getElem?_eq_getElem hin]
    simp only [hsum]
    by_cases hmore : d.block[d.next] = kMoreMark
    · rw [if_neg (not_not_intro hmore)]
      have hroom' : (d.skip 1).next + room ≤ (d.skip 1).block.length := by
        show d.next + 1 + room ≤ d.block.length
        omega
      obtain ⟨n, done, hn, hrest, hextension⟩ :=
        ih (d.skip 1) (length + d.block[d.next].toNat) hroom' (by omega)
      refine ⟨n + 1, done, by omega, ?_, ?_⟩
      · show (d.skip 1).extend room _ = _
        rw [hrest, skip_skip, hdrop, take_succ_cons, Nat.add_comm 1 n]
        simp only [byteSum, map_cons, sum_cons, Nat.add_assoc]
        rfl
      · intro hdone
        have htail : ((d.block.drop (d.next + 1)).take n) =
            extension (byteSum ((d.block.drop (d.next + 1)).take n)) := hextension hdone
        have hmark : kMoreMark.toNat = 255 := rfl
        rw [hdrop, take_succ_cons, hmore]
        simp only [byteSum, map_cons, sum_cons, hmark]
        rw [extension_of_le _ (Nat.le_add_right 255 _), Nat.add_sub_cancel_left]
        exact congrArg (cons _) htail
    · rw [if_pos hmore]
      have htake : (d.block.drop d.next).take 1 = [d.block[d.next]] := by
        rw [hdrop, take_succ_cons, take_zero]
      have hvalue : byteSum [d.block[d.next]] = d.block[d.next].toNat := by
        simp [byteSum]
      refine ⟨1, true, by omega, ?_, ?_⟩
      · rw [htake, hvalue]
        rfl
      · intro _
        have hlt : d.block[d.next].toNat < 255 := by
          have hne : d.block[d.next].toNat ≠ 255 := fun heq => hmore (UInt8.toNat_inj.mp heq)
          omega
        rw [htake, hvalue, extension_of_lt _ hlt, UInt8.ofNat_toNat]

theorem Inside.at_take (h : d.Inside) (n : Nat) :
    d.At ((d.block.drop d.next).take n ++ (d.skip n).block.drop (d.skip n).next) := by
  have hsplit : (d.block.drop d.next).take n ++ d.block.drop (d.next + n) =
      d.block.drop d.next := by
    rw [← drop_drop, take_append_drop]
  show d.At ((d.block.drop d.next).take n ++ d.block.drop (d.next + n))
  rw [hsplit]
  exact h.at_drop

theorem Inside.skip (h : d.Inside) (n : Nat) (hn : d.next + n ≤ d.block.length) :
    (d.skip n).Inside := ⟨hn, h.decoded⟩

theorem lengthOf_cases (d : Decoder) (field base : Nat) (hd : d.Inside)
    (hb : d.block.length < 2 ^ 56) (hf : field ≤ 15) (hbase : base ≤ 4) :
    ∃ n total done, d.lengthOf field (field + base) = .ok (d.skip n, total, done) ∧
      d.next + n ≤ d.block.length ∧
      total = field + base + byteSum ((d.block.drop d.next).take n) ∧ (done = true → ∃ length, total = length + base ∧
        field = min length 15 ∧ (d.block.drop d.next).take n = extra length) := by
  have hnext := hd.block
  by_cases hmark : field = kRunMark
  · have hfield : field = 15 := hmark
    obtain ⟨n, done, hn, hextend, hextension⟩ :=
      extend_cases (d.block.length - d.next) d (field + base) (by omega) (by omega)
    refine ⟨n, field + base + byteSum ((d.block.drop d.next).take n), done, ?_, by omega, rfl, ?_⟩
    · rw [lengthOf, if_pos hmark]
      exact hextend
    · intro hdone
      refine ⟨15 + byteSum ((d.block.drop d.next).take n), by omega, by omega, ?_⟩
      rw [extra, if_pos (Nat.le_add_right _ _), Nat.add_sub_cancel_left]
      exact hextension hdone
  · have hlt : field < 15 := Nat.lt_of_le_of_ne hf hmark
    refine ⟨0, field + base, true, ?_, by omega, ?_, ?_⟩
    · rw [lengthOf, if_neg hmark]
      rfl
    · rw [take_zero]
      rfl
    · intro _
      refine ⟨field, rfl, by omega, ?_⟩
      rw [extra, if_neg (by omega), take_zero]

theorem literals_cases (d : Decoder) (field : Nat) (hd : d.Inside)
    (hb : d.block.length < 2 ^ 56) (hf : field ≤ 15) :
    (∃ refusal, d.literals field = .error refusal ∧ refusal.IsMalformation) ∨
      ∃ d' bytes rest, d.literals field = .ok d' ∧ field = min bytes.length 15 ∧
        d.At (extra bytes.length ++ (bytes ++ rest)) ∧ d'.At rest ∧ d'.Inside ∧
        d'.block = d.block ∧ d.decoded.Wrote bytes d'.decoded := by
  obtain ⟨n, total, done, hlength, hn, -, hwhole⟩ := lengthOf_cases d field 0 hd hb hf (Nat.zero_le _)
  rw [Nat.add_zero] at hlength
  cases done with
  | false =>
    rw [literals, hlength]
    exact .inl ⟨_, rfl, _, rfl⟩
  | true =>
    obtain ⟨length, htotal, hfield, hextra⟩ := hwhole rfl
    rw [Nat.add_zero] at htotal
    subst htotal
    have hskip := hd.skip n hn
    have hat := hd.at_take n
    rw [literals, hlength]
    simp only
    split_ifs with hshort hlong
    · exact .inl ⟨_, rfl, _, rfl⟩
    · exact .inl ⟨_, rfl, _, rfl⟩
    · have hroom : d.next + n + total ≤ d.block.length := by
        have hleft : ¬ d.block.length - (d.next + n) < total := hshort
        omega
      have hfits : d.decoded.used + total ≤ d.decoded.buffer.length := by
        have hleft : ¬ d.decoded.buffer.length - d.decoded.used < total := hlong
        have hused := hd.decoded
        omega
      let bytes := ((d.skip n).block.drop (d.skip n).next).take total
      have hbytes : bytes.length = total := by
        show ((d.block.drop (d.next + n)).take total).length = total
        rw [length_take, length_drop]
        omega
      obtain ⟨decoded, hputs, hwrote⟩ := d.decoded.puts_wrote bytes (by rw [hbytes]; exact hfits)
      have hputs' : (d.skip n).decoded.puts bytes = some decoded := hputs
      let rest := ((d.skip n).skip total).block.drop ((d.skip n).skip total).next
      have hsplit : (d.skip n).block.drop (d.skip n).next = bytes ++ rest := by
        show _ = _ ++ d.block.drop (d.next + n + total)
        rw [← drop_drop]
        exact (take_append_drop _ _).symm
      rw [hextra, hsplit, ← hbytes] at hat
      refine .inr ⟨(d.skip n).copied total decoded, bytes, rest, ?_, ?_, hat, ?_, ?_, rfl, hwrote⟩
      · rw [hputs']
      · rw [hbytes]
        exact hfield
      · exact (hskip.skip total hroom).at_drop
      · refine ⟨hroom, ?_⟩
        show decoded.used ≤ decoded.buffer.length
        rw [hwrote.used, hwrote.size, hbytes]
        exact hfits

theorem offset_of_bytes (low high : UInt8) :
    low.toNat ||| high.toNat <<< 8 ≤ 65535 ∧
      offsetBytes (low.toNat ||| high.toNat <<< 8) = [low, high] := by
  have hlow := low.toNat_lt
  have hhigh := high.toNat_lt
  have hvalue : low.toNat ||| high.toNat <<< 8 = high.toNat * 2 ^ 8 + low.toNat := by
    have hor := Nat.shiftLeft_add_eq_or_of_lt (show low.toNat < 2 ^ 8 by omega) high.toNat
    rw [Nat.or_comm, ← hor, Nat.shiftLeft_eq]
  have hmod : (high.toNat * 2 ^ 8 + low.toNat) % 256 = low.toNat := by omega
  have hdiv : (high.toNat * 2 ^ 8 + low.toNat) / 256 = high.toNat := by omega
  rw [hvalue, offsetBytes, hmod, hdiv, UInt8.ofNat_toNat, UInt8.ofNat_toNat]
  exact ⟨by omega, rfl⟩

theorem repeatMatch_cases (d : Decoder) (offsetAt offset length : Nat) (hd : d.Inside)
    (hp : 1 ≤ offset) (hi : offset ≤ d.decoded.used) :
    (∃ refusal, d.repeatMatch offsetAt offset length = .error refusal ∧
        refusal.IsMalformation) ∨
      ∃ decoded, d.repeatMatch offsetAt offset length = .ok (d.matched offset length decoded) ∧
        d.decoded.used + 12 ≤ d.decoded.buffer.length ∧
        d.decoded.used + length + 5 ≤ d.decoded.buffer.length ∧
        decoded.written = copyBack offset length d.decoded.written ∧
        decoded.used = d.decoded.used + length ∧
        decoded.buffer.length = d.decoded.buffer.length := by
  have hused := hd.decoded
  by_cases hlate : d.decoded.buffer.length - d.decoded.used < kMatchStartLimit
  · rw [repeatMatch, if_pos hlate]
    exact .inl ⟨_, rfl, _, rfl⟩
  · by_cases hlong : d.decoded.buffer.length - d.decoded.used - kLastLiterals < length
    · rw [repeatMatch, if_neg hlate, if_pos hlong]
      exact .inl ⟨_, rfl, _, rfl⟩
    · have hearly : ¬ d.decoded.buffer.length - d.decoded.used < 12 := hlate
      have hclear : ¬ d.decoded.buffer.length - d.decoded.used - 5 < length := hlong
      obtain ⟨decoded, hcopy, hwritten, hnow, hsize⟩ :=
        copyMatch_spec offset length d.decoded hp hi (by omega)
      refine .inr ⟨decoded, ?_, by omega, by omega, hwritten, hnow, hsize⟩
      rw [repeatMatch, if_neg hlate, if_neg hlong, hcopy]

theorem matchOf_cases (d : Decoder) (field : Nat) (hd : d.Inside)
    (hb : d.block.length < 2 ^ 56) (hf : field ≤ 15) :
    (∃ refusal, d.matchOf field = .error refusal ∧ refusal.IsMalformation) ∨
      ∃ (d' : Decoder) (offset length : Nat) (rest : List UInt8), d.matchOf field = .ok d' ∧
        field = min (length - 4) 15 ∧
        d.At (offsetBytes offset ++ (extra (length - 4) ++ rest)) ∧
        d'.At rest ∧ d'.Inside ∧ d'.block = d.block ∧
        (∀ literals, Sequence.Keeps ⟨literals, offset, length⟩ d.decoded.buffer.length
          d.decoded.used) ∧
        d'.decoded.written = copyBack offset length d.decoded.written ∧
        d'.decoded.used = d.decoded.used + length ∧
        d'.decoded.buffer.length = d.decoded.buffer.length := by
  rw [matchOf]
  split_ifs with hroom
  · exact .inl ⟨_, rfl, _, rfl⟩
  · have hlow : d.next < d.block.length := by omega
    have hhigh : d.next + 1 < d.block.length := by omega
    obtain ⟨htwo, hbytes⟩ := offset_of_bytes d.block[d.next] d.block[d.next + 1]
    rw [getElem?_eq_getElem hlow, getElem?_eq_getElem hhigh]
    generalize hoffset : d.block[d.next].toNat ||| d.block[d.next + 1].toNat <<< 8 = offset
      at htwo hbytes
    simp only [hoffset]
    have htake : (d.block.drop d.next).take 2 = offsetBytes offset := by
      rw [hbytes, drop_eq_getElem_cons hlow, drop_eq_getElem_cons hhigh]
      rfl
    have hskip : (d.skip 2).Inside := hd.skip 2 (by omega)
    have hat := hd.at_take 2
    rw [htake] at hat
    split_ifs with hzero hnear
    · exact .inl ⟨_, rfl, _, rfl⟩
    · exact .inl ⟨_, rfl, _, rfl⟩
    · have hinside : offset ≤ d.decoded.used := Nat.not_lt.mp hnear
      obtain ⟨n, total, done, hlength, hn, -, hwhole⟩ :=
        lengthOf_cases (d.skip 2) field kMinMatch hskip hb hf (Nat.le_refl _)
      have hread : ({ d with next := d.next + 2 } : Decoder).lengthOf field (field + kMinMatch) =
          .ok ((d.skip 2).skip n, total, done) := hlength
      rw [hread]
      cases done with
      | false => exact .inl ⟨_, rfl, _, rfl⟩
      | true =>
        obtain ⟨code, htotal, hfield, hextra⟩ := hwhole rfl
        have hcode : total - 4 = code := by
          rw [htotal, kMinMatch]
          omega
        have hnext := hskip.at_take n
        rw [hextra, ← hcode] at hnext
        have hall := hskip.skip n hn
        rcases repeatMatch_cases ((d.skip 2).skip n) d.next offset total hall
          (Nat.one_le_iff_ne_zero.mpr hzero) hinside with
          ⟨refusal, hrefused, hmalformed⟩ | ⟨decoded, hcopied, hearly, hclear, hwritten, hused, hsize⟩
        · exact .inl ⟨refusal, hrefused, hmalformed⟩
        · refine .inr ⟨_, offset, total, _, hcopied, ?_, ?_, hall.at_drop, ?_, rfl, ?_, hwritten,
            hused, hsize⟩
          · rw [hcode]
            exact hfield
          · rw [hskip.at_drop.eq hnext] at hat
            exact hat
          · refine ⟨hall.block, ?_⟩
            show decoded.used ≤ decoded.buffer.length
            rw [hused, hsize]
            exact Nat.le_trans (Nat.le_add_right _ 5) hclear
          · intro literals
            refine ⟨Nat.one_le_iff_ne_zero.mpr hzero, htwo, hinside, ?_, hearly, hclear⟩
            show 4 ≤ total
            rw [htotal, kMinMatch]
            omega

theorem token_of_fields (b : UInt8) (literals code : Nat) (hl : b.toNat >>> 4 = min literals 15)
    (hc : b.toNat &&& 0x0F = min code 15) : b = token literals code := by
  have hlow : b.toNat &&& 0x0F = b.toNat % 2 ^ 4 := Nat.and_two_pow_sub_one_eq_mod _ 4
  rw [hlow] at hc
  rw [Nat.shiftRight_eq_div_pow] at hl
  apply UInt8.toNat_inj.mp
  rw [token, UInt8.toNat_ofNat']
  omega

theorem last_cases (d : Decoder) (tokenAt token : Nat) :
    (∃ refusal, d.last tokenAt token = .error refusal ∧ refusal.IsMalformation) ∨
      token &&& 0x0F = 0 ∧ d.decoded.used = d.decoded.buffer.length := by
  by_cases hmatch : token &&& 0x0F = 0
  · by_cases hfull : d.decoded.used = d.decoded.buffer.length
    · exact .inr ⟨hmatch, hfull⟩
    · rw [last, if_neg (not_not_intro hmatch), if_pos hfull]
      exact .inl ⟨_, rfl, _, rfl⟩
  · rw [last, if_pos hmatch]
    exact .inl ⟨_, rfl, _, rfl⟩

theorem fields_le (byte : UInt8) : byte.toNat >>> 4 ≤ 15 ∧ byte.toNat &&& 0x0F ≤ 15 := by
  have hbyte := byte.toNat_lt
  rw [Nat.shiftRight_eq_div_pow]
  exact ⟨by omega, Nat.and_le_right⟩

/-- What a decoder makes of the rest of its block: a broken rule, or the sequences it is written
in. -/
theorem run_cases (rounds : Nat) (d : Decoder) (hd : d.Inside) (hb : d.block.length < 2 ^ 56)
    (hr : d.block.length - d.next < rounds) :
    (∃ refusal, d.run rounds = .error refusal ∧ refusal.IsMalformation) ∨
      ∃ sequences final, d.At (blockBytes sequences final) ∧
        WellFormed d.decoded.buffer.length d.decoded.used sequences ∧
        (denote d.decoded.written sequences ++ final).length = d.decoded.buffer.length := by
  induction rounds generalizing d with
  | zero => cases hr
  | succ rounds ih =>
    by_cases hopen : d.next = d.block.length
    · rw [run, if_pos hopen]
      exact .inl ⟨_, rfl, _, rfl⟩
    · have hin : d.next < d.block.length := Nat.lt_of_le_of_ne hd.block hopen
      have hfields := fields_le d.block[d.next]
      have hskip : (d.skip 1).Inside := hd.skip 1 hin
      have htoken : d.At (d.block[d.next] :: (d.skip 1).block.drop (d.skip 1).next) := by
        have hat := hd.at_drop
        rw [drop_eq_getElem_cons hin] at hat
        exact hat
      rcases literals_cases (d.skip 1) _ hskip hb hfields.1 with
        ⟨refusal, hrefused, hmalformed⟩ |
        ⟨d', literals, rest, hliterals, hfield, hat, hat', hinside, hblock, hwrote⟩
      · have hrefused' : ({ d with next := d.next + 1 } : Decoder).literals
            (d.block[d.next].toNat >>> 4) = .error refusal := hrefused
        refine .inl ⟨refusal, ?_, hmalformed⟩
        rw [run, if_neg hopen, getElem?_eq_getElem hin]
        simp only [hrefused']
      · have hliterals' : ({ d with next := d.next + 1 } : Decoder).literals
            (d.block[d.next].toNat >>> 4) = .ok d' := hliterals
        have hused : d'.decoded.used = d.decoded.used + literals.length := hwrote.used
        have hsize : d'.decoded.buffer.length = d.decoded.buffer.length := hwrote.size
        have hwritten : d'.decoded.written = d.decoded.written ++ literals := hwrote.written
        rw [run, if_neg hopen, getElem?_eq_getElem hin]
        simp only [hliterals']
        by_cases hend : d'.next = d'.block.length
        · rw [if_pos hend]
          rcases last_cases d' d.next d.block[d.next].toNat with hrefused | ⟨hcode, hfull⟩
          · exact .inl hrefused
          · have hrest : rest = [] := hat'.ends_iff.mp hend
            have hname : d.block[d.next] = token literals.length 0 :=
              token_of_fields _ _ _ hfield hcode
            refine .inr ⟨[], literals, ?_, trivial, ?_⟩
            · rw [hname, hskip.at_drop.eq hat, hrest, append_nil] at htoken
              exact htoken
            · rw [denote, ← hwritten, Output.written, length_take, hfull, Nat.min_self, hsize]
        · rw [if_neg hend]
          rcases matchOf_cases d' _ hinside (by rw [hblock]; exact hb) hfields.2 with
            ⟨refusal, hrefused, hmalformed⟩ |
            ⟨d'', offset, length, rest', hmatch, hcode, hat'', hrest', hinside', hblock', hkeeps,
              hcopied, hnow, hsize'⟩
          · refine .inl ⟨refusal, ?_, hmalformed⟩
            simp only [hrefused]
          · simp only [hmatch]
            have hname : d.block[d.next] = token literals.length (length - 4) :=
              token_of_fields _ _ _ hfield hcode
            rw [hname, hskip.at_drop.eq hat, hat'.eq hat''] at htoken
            have hroom := htoken.room
            have hroom' := hrest'.room
            rw [length_cons, length_append, length_append, length_append, length_append] at hroom
            rcases ih d'' hinside' (by rw [hblock', hblock]; exact hb) (by omega) with
              hrefused | ⟨more, final, hmore, hwell, hlength⟩
            · exact .inl hrefused
            · rw [hrest'.eq hmore] at htoken
              refine .inr ⟨⟨literals, offset, length⟩ :: more, final, ?_, ?_, ?_⟩
              · simp only [blockBytes, flatMap_cons, Sequence.bytes, cons_append, append_assoc]
                exact htoken
              · have hkept := hkeeps literals
                rw [hsize, hused] at hkept
                rw [hsize', hsize, hnow, hused] at hwell
                exact ⟨hkept, hwell⟩
              · rw [hcopied, hwritten, hsize', hsize] at hlength
                exact hlength

theorem base_le {base : Nat} (h : base = 0 ∨ base = kMinMatch) : base ≤ 4 := by
  rw [kMinMatch] at h
  omega

theorem Comes.inside {start : Decoder} (h : Comes start d) (hs : start.Inside)
    (hb : start.block.length < 2 ^ 56) : d.Inside ∧ d.block = start.block := by
  induction h with
  | start => exact ⟨hs, rfl⟩
  | token _ hopen ih => exact ⟨ih.1.skip 1 (Nat.lt_of_le_of_ne ih.1.block hopen), ih.2⟩
  | @length d d' field base total done _ hf hbase hlength ih =>
    obtain ⟨n, total', done', hread, hn, -⟩ :=
      lengthOf_cases d field base ih.1 (by rw [ih.2]; exact hb) hf (base_le hbase)
    rw [hread] at hlength
    cases hlength
    exact ⟨ih.1.skip n hn, ih.2⟩
  | @literals d d' field _ hf hliterals ih =>
    rcases literals_cases d field ih.1 (by rw [ih.2]; exact hb) hf with
      ⟨refusal, hrefused, -⟩ | ⟨d'', bytes, rest, hread, -, -, -, hinside, hblock, -⟩
    · rw [hrefused] at hliterals
      cases hliterals
    · rw [hread] at hliterals
      cases hliterals
      exact ⟨hinside, hblock.trans ih.2⟩
  | @offset d _ hroom ih =>
    exact ⟨ih.1.skip 2 (by omega), ih.2⟩
  | @matched d d' field _ hf hmatch ih =>
    rcases matchOf_cases d field ih.1 (by rw [ih.2]; exact hb) hf with
      ⟨refusal, hrefused, -⟩ | ⟨d'', offset, length, rest, hread, -, -, -, hinside, hblock, -⟩
    · rw [hrefused] at hmatch
      cases hmatch
    · rw [hread] at hmatch
      cases hmatch
      exact ⟨hinside, hblock.trans ih.2⟩

end Decoder

theorem blockBytes_inWords (sequences : List Sequence) (final : List UInt8)
    (h : (blockBytes sequences final).length < 2 ^ 56) :
    (∀ s ∈ sequences, s.InWords) ∧ final.length < 2 ^ 64 := by
  rw [blockBytes, length_append, lastBytes, length_cons, length_append] at h
  refine ⟨?_, by omega⟩
  intro s hs
  have hbytes : s.bytes.length ≤ (sequences.flatMap Sequence.bytes).length :=
    (sublist_flatten_of_mem (mem_map_of_mem hs)).length_le
  have hlen := s.bytes_length
  refine ⟨by omega, ?_⟩
  by_cases hlong : 15 ≤ s.length - 4
  · have hextra : (extra (s.length - 4)).length = (s.length - 4 - 15) / 255 + 1 := by
      rw [extra, if_pos hlong, extension_length]
    omega
  · omega

def Decoder.begin (block decoded : List UInt8) : Decoder := { block := block, decoded := ⟨decoded, 0⟩ }

/-- It accepts the grammar and nothing else, gives what the sequences stand for, and stops at a
broken rule within its buffers. -/
structure Strict (block decoded : List UInt8) : Prop where
  accepts : (∃ summary bytes, decodeBlock block decoded = .ok (summary, bytes)) ↔
    ∃ sequences final, Grammar block decoded.length sequences final
  denotes : ∀ summary bytes sequences final, decodeBlock block decoded = .ok (summary, bytes) →
    Grammar block decoded.length sequences final → bytes = denote [] sequences ++ final
  refuses : ∀ refusal, decodeBlock block decoded = .error refusal → refusal.IsMalformation
  inside : ∀ d, (Decoder.begin block decoded).Comes d → d.Inside
  exact : ∀ (d d' : Decoder) (field base total : Nat) (done : Bool),
    (Decoder.begin block decoded).Comes d → field ≤ kRunMark → base = 0 ∨ base = kMinMatch →
    d.lengthOf field (field + base) = .ok (d', total, done) →
    total = field + base + Decoder.byteSum ((block.drop d.next).take (d'.next - d.next))

section

variable (block decoded : List UInt8) (hb : block.length < 2 ^ 56)
include hb

theorem decodeBlock_grammar (sequences : List Sequence) (final : List UInt8)
    (hg : Grammar block decoded.length sequences final) :
    ∃ summary, decodeBlock block decoded = .ok (summary, denote [] sequences ++ final) := by
  have hbytes := hg.bytes
  rw [hbytes] at hb ⊢
  obtain ⟨hwords, hfinal⟩ := blockBytes_inWords sequences final hb
  exact decodeBlock_blockBytes sequences final decoded hwords hfinal hg.rules hg.size

theorem decodeBlock_cases :
    (∃ refusal, decodeBlock block decoded = .error refusal ∧ refusal.IsMalformation) ∨
      ∃ summary sequences final, Grammar block decoded.length sequences final ∧
        decodeBlock block decoded = .ok (summary, denote [] sequences ++ final) := by
  rcases Decoder.run_cases (block.length + 1) (Decoder.begin block decoded)
    ⟨Nat.zero_le _, Nat.zero_le _⟩ hb (Nat.lt_succ_self _) with
    hrefused | ⟨sequences, final, hat, hwell, hsize⟩
  · exact .inl hrefused
  · have hg : Grammar block decoded.length sequences final := ⟨hat.drop, hwell, hsize⟩
    obtain ⟨summary, hok⟩ := decodeBlock_grammar block decoded hb sequences final hg
    exact .inr ⟨summary, sequences, final, hg, hok⟩

end

/-- For every block of fewer than 2^56 bytes and every size. -/
theorem strict_decoder_accepts_its_grammar (block decoded : List UInt8)
    (hb : block.length < 2 ^ 56) : Strict block decoded := by
  have hinside : (Decoder.begin block decoded).Inside := ⟨Nat.zero_le _, Nat.zero_le _⟩
  have hgrammar := decodeBlock_grammar block decoded hb
  have hcases := decodeBlock_cases block decoded hb
  constructor
  · constructor
    · rintro ⟨summary, bytes, hok⟩
      rcases hcases with ⟨refusal, hrefused, -⟩ | ⟨_, sequences, final, hg, -⟩
      · rw [hrefused] at hok
        cases hok
      · exact ⟨sequences, final, hg⟩
    · rintro ⟨sequences, final, hg⟩
      obtain ⟨summary, hok⟩ := hgrammar sequences final hg
      exact ⟨summary, _, hok⟩
  · intro summary bytes sequences final hok hg
    obtain ⟨summary', hok'⟩ := hgrammar sequences final hg
    rw [hok'] at hok
    cases hok
    rfl
  · intro refusal hrefused
    rcases hcases with ⟨refusal', hsame, hmalformed⟩ | ⟨_, _, _, _, hok⟩
    · rw [hsame] at hrefused
      cases hrefused
      exact hmalformed
    · rw [hok] at hrefused
      cases hrefused
  · intro d hcomes
    exact (hcomes.inside hinside hb).1
  · intro d d' field base total done hcomes hf hbase hlength
    obtain ⟨hd, hblock⟩ := hcomes.inside hinside hb
    obtain ⟨n, total', done', hread, -, htotal, -⟩ := Decoder.lengthOf_cases d field base hd
      (by rw [hblock]; exact hb) hf (Decoder.base_le hbase)
    rw [hread] at hlength
    cases hlength
    rw [htotal, hblock]
    show _ = field + base + Decoder.byteSum ((block.drop d.next).take (d.next + n - d.next))
    rw [Nat.add_sub_cancel_left]
    rfl

/-- Four literals, a match that copies them, and the last literals. -/
def copyingBlock : List UInt8 := [0x40, 1, 2, 3, 4, 4, 0, 0x80, 5, 6, 7, 8, 9, 10, 11, 12]

theorem copying_block_is_strict :
    (decodeBlock copyingBlock (List.replicate 16 0)).isOk = true ∧
      Strict copyingBlock (List.replicate 16 0) :=
  ⟨by decide +kernel, strict_decoder_accepts_its_grammar _ _ (by decide)⟩

end LoadForge.Verification.Compression
