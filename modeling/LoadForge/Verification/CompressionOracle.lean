import LoadForge.Verification.BlockGrammar
import LoadForge.Verification.Oracle
import LoadForge.Workloads.Compression

namespace LoadForge.Verification.Compression

open Framework Framework.Lz4 Integrity Workloads Workloads.Compression List Option

def kWhat : String := "the compressed output, decoded, against the input"

structure Scratch where
  bytes : List UInt8
  size : bytes.length = kInputBytes

/-- A mismatch without a difference: the output is wrong and has no bits to compare. -/
def malformed (index : Nat) (rule : String) : Integrity.Verdict :=
  .exactMismatch (bytesOf ("compressed output malformed at byte " ++ toString index ++ ": " ++ rule))
    none 1

structure Derived where
  first : Nat
  last : Nat := 0
  popcount : UInt64 := 0

def Derived.byte (d : Derived) (index : Nat) (delta : UInt8) : Derived :=
  if delta = 0 then d
  else ⟨min d.first index, index, d.popcount + UInt64.ofNat (bitsSet delta)⟩

def Derived.bytes (d : Derived) (index : Nat) : List (UInt8 × UInt8) → Derived
  | [] => d
  | (expected, actual) :: rest => (d.byte index (expected ^^^ actual)).bytes (index + 1) rest

/-- The difference between what the block decoded to and the input, or none. -/
def derivedDifference (expected actual : List UInt8) : Option Difference :=
  let seen := Derived.bytes ⟨expected.length, 0, 0⟩ 0 (expected.zip actual)
  if seen.popcount = 0 then none
  else
    let windowOffset := seen.first / kWordBytes.toNat * kWordBytes.toNat
    let size := min kMaxWindowBytes (expected.length - windowOffset)
    some {
      domain := kDerived
      firstOffset := UInt64.ofNat seen.first
      lastOffset := UInt64.ofNat seen.last
      popcount := seen.popcount
      windowOffset := UInt64.ofNat windowOffset
      expected := (expected.drop windowOffset).take size
      actual := (actual.drop windowOffset).take size }

/-- The first byte of the padding after the block that is not zero. -/
def nonzeroPadding (output : List UInt8) (start : Nat) : Option Nat :=
  ((output.drop start).findIdx? fun value => value ≠ 0).map fun index => start + index

def wrongSize (evidence : UnitEvidence) : String :=
  "the evidence is " ++ toString evidence.input.length ++ " bytes of input and " ++
    toString evidence.output.length ++ " of output; a compression unit is " ++
    toString kInputBytes ++ " and " ++ toString kOutputBytes

def checkBlock (input block : List UInt8) (scratch : Scratch) : Option Integrity.Verdict :=
  match decodeBlock block scratch.bytes with
  | .error refusal =>
    match refusal.fault with
    | .malformed broken =>
      some (malformed (Workloads.Compression.kHeaderBytes + broken.index)
        (broken.rule.describe ++ " (" ++ toString broken.decoded ++ " bytes decoded)"))
    | _ => none
  | .ok (_, decoded) =>
    match derivedDifference input decoded with
    | some difference => some (.exactMismatch (bytesOf kWhat) (some difference) 1)
    | none => some (.agreement 1)

/-- The verdict on a unit. A read outside of the output has none. -/
def check (evidence : UnitEvidence) (scratch : Option Scratch) : Option Integrity.Verdict :=
  if evidence.input.length ≠ kInputBytes ∨ evidence.output.length ≠ kOutputBytes then
    some (.notChecked (bytesOf kWhat) (bytesOf (wrongSize evidence)) 0)
  else do
    let magic ← loadLe32 evidence.output 0
    if magic ≠ kMagic then return malformed 0 "the magic is not \"LFZ1\""
    else
      let length ← loadLe32 evidence.output 4
      if kBlockBound < length.toNat then
        return malformed 4 "the block length exceeds compress_bound(65536) = 65809"
      else
        match nonzeroPadding evidence.output (Workloads.Compression.kHeaderBytes + length.toNat) with
        | some padding => return malformed padding "the padding after the block is not zero"
        | none =>
          match scratch with
          | none =>
            return .notChecked (bytesOf kWhat)
              (bytesOf "no scratch for the decoded bytes could be had") 0
          | some scratch =>
            checkBlock evidence.input
              ((evidence.output.drop Workloads.Compression.kHeaderBytes).take length.toNat) scratch

theorem bytes_popcount (pairs : List (UInt8 × UInt8)) (d : Derived) (index : Nat)
    (h : d.popcount.toNat + 8 * pairs.length < 2 ^ 64) :
    (d.bytes index pairs).popcount.toNat =
      d.popcount.toNat + (pairs.map fun p => bitsSet (p.1 ^^^ p.2)).sum := by
  induction pairs generalizing d index with
  | nil => rfl
  | cons p rest ih =>
    obtain ⟨expected, actual⟩ := p
    rw [length_cons] at h
    have hbits := bitsSet_le (expected ^^^ actual)
    have hnow : (d.byte index (expected ^^^ actual)).popcount.toNat =
        d.popcount.toNat + bitsSet (expected ^^^ actual) := by
      rw [Derived.byte]
      split_ifs with hzero
      · rw [hzero]
        rfl
      · show (d.popcount + UInt64.ofNat _).toNat = _
        rw [UInt64.toNat_add, UInt64.toNat_ofNat_of_lt' (by show bitsSet _ < 2 ^ 64; omega)]
        omega
    rw [Derived.bytes, ih _ _ (by omega), hnow, map_cons, sum_cons, Nat.add_assoc]

section

variable (expected actual : List UInt8) (hl : expected.length = actual.length)
include hl

theorem sum_bitsSet_eq_zero_iff :
    ((expected.zip actual).map fun p => bitsSet (p.1 ^^^ p.2)).sum = 0 ↔ expected = actual := by
  induction expected generalizing actual with
  | nil =>
    have hnil : actual = [] := length_eq_zero_iff.mp hl.symm
    rw [hnil]
    exact ⟨fun _ => rfl, fun _ => rfl⟩
  | cons e expected ih =>
    cases actual with
    | nil => cases hl
    | cons a actual =>
      have hbyte : bitsSet (e ^^^ a) = 0 ↔ e = a := by
        constructor
        · intro hzero
          by_contra hne
          have hpos := bitsSet_pos (e ^^^ a) fun h => hne (UInt8.xor_eq_zero_iff.mp h)
          omega
        · intro heq
          rw [heq, UInt8.xor_self]
          rfl
      simp [hbyte, ih actual (Nat.succ.inj hl)]

theorem derivedDifference_eq_none_iff (hs : 8 * expected.length < 2 ^ 64) :
    derivedDifference expected actual = none ↔ expected = actual := by
  have hcount := bytes_popcount (expected.zip actual) ⟨expected.length, 0, 0⟩ 0 (by
    rw [length_zip, ← hl, Nat.min_self]
    exact (Nat.zero_add _).symm ▸ hs)
  have hzero : (Derived.bytes ⟨expected.length, 0, 0⟩ 0 (expected.zip actual)).popcount = 0 ↔
      expected = actual := by
    rw [← UInt64.toNat_inj, hcount, ← sum_bitsSet_eq_zero_iff expected actual hl]
    exact iff_of_eq (congrArg (· = 0) (Nat.zero_add _))
  rw [← hzero, derivedDifference]
  constructor
  · intro hnone
    by_contra hne
    simp only [if_neg hne] at hnone
    cases hnone
  · intro hnone
    simp only [if_pos hnone]

end

theorem loadLe32_append (front word rest : List UInt8) (hw : word.length = 4) :
    loadLe32 (front ++ (word ++ rest)) front.length = some (UInt32.ofNat (leNat word)) := by
  obtain ⟨b0, b1, b2, b3, rfl⟩ : ∃ b0 b1 b2 b3, word = [b0, b1, b2, b3] := by
    match word, hw with
    | [b0, b1, b2, b3], _ => exact ⟨b0, b1, b2, b3, rfl⟩
  have hget : ∀ k, (front ++ ([b0, b1, b2, b3] ++ rest))[front.length + k]? =
      ([b0, b1, b2, b3] ++ rest)[k]? := by
    intro k
    rw [getElem?_append_right (Nat.le_add_right _ _), Nat.add_sub_cancel_left]
  have hfirst := hget 0
  rw [Nat.add_zero] at hfirst
  rw [loadLe32, hfirst, hget 1, hget 2, hget 3]
  rfl

theorem nonzeroPadding_eq_none_iff (front padding : List UInt8) :
    nonzeroPadding (front ++ padding) front.length = none ↔
      padding = replicate padding.length 0 := by
  rw [nonzeroPadding, map_eq_none_iff, drop_left' rfl, findIdx?_eq_none_iff, eq_replicate_iff]
  simp

/-- The magic, the length of a block within the bound, a block that decodes to the input, and
zeros. -/
def IsCompressed (input output : List UInt8) : Prop :=
  ∃ block : List UInt8, block.length ≤ kBlockBound ∧
    output = leBytes 4 kMagic.toNat ++ (leBytes 4 block.length ++
      (block ++ List.replicate (kBlockBound - block.length) 0)) ∧
    ∀ decoded : List UInt8, decoded.length = input.length →
      ∃ summary, decodeBlock block decoded = .ok (summary, input)

theorem decodeBlock_any_buffer (block decoded decoded' bytes : List UInt8) (summary : Summary)
    (hb : block.length < 2 ^ 56) (hl : decoded'.length = decoded.length)
    (h : decodeBlock block decoded = .ok (summary, bytes)) :
    ∃ summary', decodeBlock block decoded' = .ok (summary', bytes) := by
  rcases decodeBlock_cases block decoded hb with
    ⟨refusal, hrefused, -⟩ | ⟨_, sequences, final, hgrammar, hok⟩
  · rw [hrefused] at h
    cases h
  · rw [hok] at h
    cases h
    rw [← hl] at hgrammar
    exact decodeBlock_grammar block decoded' hb sequences final hgrammar

theorem checkBlock_agrees_iff (input block : List UInt8) (scratch : Scratch)
    (hi : input.length = kInputBytes) (hb : block.length < 2 ^ 56) :
    Agrees (checkBlock input block scratch) ↔
      ∀ decoded : List UInt8, decoded.length = input.length →
        ∃ summary, decodeBlock block decoded = .ok (summary, input) := by
  have hsmall : 8 * input.length < 2 ^ 64 := by
    rw [hi]
    decide
  constructor
  · rintro ⟨blocks, hagrees⟩ decoded hl
    rw [checkBlock] at hagrees
    rcases decodeBlock_cases block scratch.bytes hb with
      ⟨refusal, hrefused, malformation, hfault⟩ | ⟨summary, sequences, final, hgrammar, hok⟩
    · rw [hrefused] at hagrees
      simp only [hfault] at hagrees
      cases hagrees
    · rw [hok] at hagrees
      have hlength : input.length = (denote [] sequences ++ final).length := by
        rw [hgrammar.size, hi, scratch.size]
      cases hdifference : derivedDifference input (denote [] sequences ++ final) with
      | some difference =>
        simp only [hdifference] at hagrees
        cases hagrees
      | none =>
        rw [(derivedDifference_eq_none_iff input _ hlength hsmall).mp hdifference]
        apply decodeBlock_any_buffer block scratch.bytes decoded _ summary hb _ hok
        rw [hl, hi, scratch.size]
  · intro hdecodes
    obtain ⟨summary, hok⟩ := hdecodes scratch.bytes (by rw [scratch.size, hi])
    have hnone : derivedDifference input input = none :=
      (derivedDifference_eq_none_iff input input rfl hsmall).mpr rfl
    refine ⟨1, ?_⟩
    rw [checkBlock, hok]
    simp only [hnone]

theorem check_agrees_iff (index : UInt64) (input magic length rest : List UInt8) (scratch : Scratch)
    (hi : input.length = kInputBytes) (hm : magic.length = 4) (hl : length.length = 4)
    (hr : rest.length = kBlockBound) :
    Agrees (check ⟨index, input, magic ++ (length ++ rest)⟩ (some scratch)) ↔
      UInt32.ofNat (leNat magic) = kMagic ∧ leNat length ≤ kBlockBound ∧
        rest.drop (leNat length) = replicate (kBlockBound - leNat length) 0 ∧
        Agrees (checkBlock input (rest.take (leNat length)) scratch) := by
  have hout : (magic ++ (length ++ rest)).length = kOutputBytes := by
    rw [length_append, length_append, hm, hl, hr]
    rfl
  have hsizes : ¬ (input.length ≠ kInputBytes ∨ (magic ++ (length ++ rest)).length ≠ kOutputBytes) := by
    rw [hi, hout]
    decide
  have hmagic : loadLe32 (magic ++ (length ++ rest)) 0 = some (UInt32.ofNat (leNat magic)) :=
    loadLe32_append [] magic (length ++ rest) hm
  have hlength : loadLe32 (magic ++ (length ++ rest)) 4 = some (UInt32.ofNat (leNat length)) := by
    have hload := loadLe32_append magic length rest hl
    rw [hm] at hload
    exact hload
  have hword : (UInt32.ofNat (leNat length)).toNat = leNat length := by
    have hlt := leNat_lt length
    rw [hl] at hlt
    exact UInt32.toNat_ofNat_of_lt' hlt
  have hblock : ((magic ++ (length ++ rest)).drop Workloads.Compression.kHeaderBytes) = rest := by
    rw [← append_assoc]
    exact drop_left' (by rw [length_append, hm, hl]; rfl)
  have hfront : magic ++ (length ++ rest) =
      (magic ++ (length ++ rest.take (leNat length))) ++ rest.drop (leNat length) := by
    simp
  by_cases hkeeps : UInt32.ofNat (leNat magic) = kMagic
  · by_cases hbound : leNat length ≤ kBlockBound
    · have hsize : (magic ++ (length ++ rest.take (leNat length))).length =
          Workloads.Compression.kHeaderBytes + leNat length := by
        rw [length_append, length_append, length_take, hm, hl, hr,
          Nat.min_eq_left hbound, ← Nat.add_assoc]
        rfl
      have hpadding := nonzeroPadding_eq_none_iff (magic ++ (length ++ rest.take (leNat length)))
        (rest.drop (leNat length))
      rw [← hfront, hsize, length_drop, hr] at hpadding
      cases hfound : nonzeroPadding (magic ++ (length ++ rest))
          (Workloads.Compression.kHeaderBytes + leNat length) with
      | some padding =>
        have hnot : rest.drop (leNat length) ≠ replicate (kBlockBound - leNat length) 0 := by
          intro hzeros
          rw [hpadding.mpr hzeros] at hfound
          cases hfound
        constructor
        · rintro ⟨blocks, hagrees⟩
          simp only [check, if_neg hsizes, hmagic, hlength, bind_eq_bind, bind_some,
            hkeeps, ne_eq, not_true_eq_false, if_false, hword, if_neg (Nat.not_lt.mpr hbound),
            hfound] at hagrees
          cases hagrees
        · rintro ⟨-, -, hzeros, -⟩
          exact absurd hzeros hnot
      | none =>
        have hcheck : check ⟨index, input, magic ++ (length ++ rest)⟩ (some scratch) =
            checkBlock input (rest.take (leNat length)) scratch := by
          simp only [check, if_neg hsizes, hmagic, hlength, bind_eq_bind, bind_some,
            hkeeps, ne_eq, not_true_eq_false, if_false, hword, if_neg (Nat.not_lt.mpr hbound),
            hfound, hblock]
        rw [hcheck]
        constructor
        · intro hagrees
          exact ⟨hkeeps, hbound, hpadding.mp hfound, hagrees⟩
        · rintro ⟨-, -, -, hagrees⟩
          exact hagrees
    · constructor
      · rintro ⟨blocks, hagrees⟩
        simp only [check, if_neg hsizes, hmagic, hlength, bind_eq_bind, bind_some,
          hkeeps, ne_eq, not_true_eq_false, if_false, hword, if_pos (Nat.lt_of_not_le hbound)]
          at hagrees
        cases hagrees
      · rintro ⟨-, hle, -⟩
        exact absurd hle hbound
  · constructor
    · rintro ⟨blocks, hagrees⟩
      simp only [check, if_neg hsizes, hmagic, bind_eq_bind, bind_some, ne_eq,
        if_pos hkeeps] at hagrees
      cases hagrees
    · rintro ⟨hmagic', -⟩
      exact absurd hmagic' hkeeps

theorem check_agrees_iff_isCompressed (index : UInt64) (input output : List UInt8)
    (scratch : Scratch) (hi : input.length = kInputBytes) (ho : output.length = kOutputBytes) :
    Agrees (check ⟨index, input, output⟩ (some scratch)) ↔ IsCompressed input output := by
  have hsplit : output = output.take 4 ++ ((output.drop 4).take 4 ++ (output.drop 4).drop 4) := by
    rw [take_append_drop, take_append_drop]
  have hm : (output.take 4).length = 4 := by
    rw [length_take, ho]
    decide
  have hl : ((output.drop 4).take 4).length = 4 := by
    rw [length_take, length_drop, ho]
    decide
  have hr : ((output.drop 4).drop 4).length = kBlockBound := by
    rw [length_drop, length_drop, ho]
    decide
  have hbound : kBlockBound < 2 ^ 56 := by decide
  generalize output.take 4 = magic at hsplit hm
  generalize (output.drop 4).take 4 = length at hsplit hl
  generalize (output.drop 4).drop 4 = rest at hsplit hr
  subst hsplit
  rw [check_agrees_iff index input magic length rest scratch hi hm hl hr]
  constructor
  · rintro ⟨hmagic, hlength, hzeros, hagrees⟩
    have hsize : (rest.take (leNat length)).length = leNat length := by
      rw [length_take, hr, Nat.min_eq_left hlength]
    refine ⟨rest.take (leNat length), ?_, ?_, ?_⟩
    · rw [hsize]
      exact hlength
    · have hword : magic = leBytes 4 kMagic.toNat := by
        have hlt := leNat_lt magic
        rw [hm] at hlt
        apply leNat_inj _ _ (by rw [hm, leBytes_length])
        rw [← hmagic, UInt32.toNat_ofNat_of_lt' hlt, leNat_leBytes_of_lt 4 _ hlt]
      have hword' : length = leBytes 4 (leNat length) := by
        have hlt := leNat_lt length
        rw [hl] at hlt
        apply leNat_inj _ _ (by rw [hl, leBytes_length])
        rw [leNat_leBytes_of_lt 4 _ hlt]
      rw [hsize, ← hzeros, take_append_drop, ← hword, ← hword']
    · exact (checkBlock_agrees_iff input _ scratch hi (by rw [hsize]; omega)).mp hagrees
  · rintro ⟨block, hblock, houtput, hdecodes⟩
    have hmagic := append_inj_left houtput (by rw [hm, leBytes_length])
    have htail := append_inj_right houtput (by rw [hm, leBytes_length])
    have hlength := append_inj_left htail (by rw [hl, leBytes_length])
    have hrest := append_inj_right htail (by rw [hl, leBytes_length])
    have hfirst : UInt32.ofNat (leNat magic) = kMagic := by
      rw [hmagic, leNat_leBytes_of_lt 4 _ (by decide)]
      rfl
    have hsize : leNat length = block.length := by
      rw [hlength]
      exact leNat_leBytes_of_lt 4 _ (Nat.lt_of_le_of_lt hblock (by decide))
    rw [hsize, hrest, take_left' rfl, drop_left' rfl]
    exact ⟨hfirst, hblock, rfl,
      (checkBlock_agrees_iff input block scratch hi (by omega)).mpr hdecodes⟩

/-- The oracle agrees with the format and with nothing else, and with every unit its workload
writes. -/
def JudgesFormat (index : UInt64) (input output : List UInt8) (scratch : Scratch) : Prop :=
  (Agrees (check ⟨index, input, output⟩ (some scratch)) ↔ IsCompressed input output) ∧
    ∀ table, ∃ written table', writeUnit input output table = some (written, table') ∧
      written.length = kOutputBytes ∧ Agrees (check ⟨index, input, written⟩ (some scratch))

/-- For every unit of the sizes that the workload plans. -/
theorem compression_oracle_judges_format (index : UInt64) (input output : List UInt8)
    (scratch : Scratch) (hi : input.length = kInputBytes) (ho : output.length = kOutputBytes) :
    JudgesFormat index input output scratch := by
  refine ⟨check_agrees_iff_isCompressed index input output scratch hi ho, ?_⟩
  intro table
  obtain ⟨sequences, final, table', hwritten, hbound, hwell, hdenoted⟩ :=
    writeUnit_spec input output table hi ho
  have hlength : (leBytes 4 kMagic.toNat ++ (leBytes 4 (blockBytes sequences final).length ++
      (blockBytes sequences final ++ replicate (kBlockBound -
        (blockBytes sequences final).length) 0))).length = kOutputBytes := by
    rw [length_append, length_append, length_append, length_replicate,
      leBytes_length, leBytes_length, Nat.add_sub_cancel' hbound]
    rfl
  refine ⟨_, table', hwritten, hlength, ?_⟩
  rw [check_agrees_iff_isCompressed index input _ scratch hi hlength]
  refine ⟨blockBytes sequences final, hbound, rfl, ?_⟩
  intro decoded hl
  have hsmall : kInputBytes < 2 ^ 64 := by decide
  have hwords := wellFormed_inWords kInputBytes 0 sequences hwell hsmall
  have hsum := congrArg length hdenoted
  rw [length_append, hi] at hsum
  have hdecoded := decodeBlock_blockBytes sequences final decoded hwords (by omega)
    (by rw [hl, hi]; exact hwell) (by rw [hdenoted, hl])
  rw [hdenoted] at hdecoded
  exact hdecoded

theorem oracle_judges_zeros : JudgesFormat 0 (List.replicate kInputBytes 0)
    (List.replicate kOutputBytes 1) ⟨List.replicate kInputBytes 2, List.length_replicate⟩ :=
  compression_oracle_judges_format _ _ _ _ length_replicate length_replicate

end LoadForge.Verification.Compression
