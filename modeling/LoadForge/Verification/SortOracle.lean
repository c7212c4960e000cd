import Mathlib.Data.Nat.Bitwise
import LoadForge.Verification.Oracle
import LoadForge.Workloads.SortPasses

namespace LoadForge.Verification.Sort

open Framework Integrity Workloads Workloads.Sort List Option

def kWordBits : Nat := 64
def kSeenWords : Nat := kKeys / kWordBits

def indicesMismatch (what : String) (position : Nat) : Integrity.Verdict :=
  .exactMismatch (bytesOf (what ++ toString position)) none (UInt64.ofNat (position + 1))

def unchecked (what why : String) : Integrity.Verdict :=
  .notChecked (bytesOf what) (bytesOf why) 0

/-- One index against the bits of those seen before it. -/
def checkIndex (output : List UInt8) (seen : List Nat) (position : Nat) :
    Option (Except Integrity.Verdict (List Nat)) := do
  let index ← loadLe32 output (indexOffset position)
  if kKeys ≤ index then
    return .error (indicesMismatch "index out of range at position " position)
  else
    let word ← seen[index / kWordBits]?
    let bit := 1 <<< (index % kWordBits)
    if word &&& bit ≠ 0 then
      return .error (indicesMismatch "index repeated at position " position)
    else return .ok (seen.set (index / kWordBits) (word ||| bit))

def checkIndices (output : List UInt8) (seen : List Nat) :
    Option (Except Integrity.Verdict (List Nat)) :=
  foldUntil (checkIndex output) (List.range' 0 kKeys) seen

structure KeysSeen where
  firstPosition : Option Nat := none
  firstOffset : Nat := 0
  lastOffset : Nat := 0
  popcount : Nat := 0

def countrZero (delta : Nat) : Nat := (List.range kWordBits).findIdx fun bit => delta.testBit bit
def countlZero (delta : Nat) : Nat := kWordBits - 1 - Nat.log2 delta
def popcount (delta : Nat) : Nat := (List.range kWordBits).countP fun bit => delta.testBit bit

def checkKey (evidence : UnitEvidence) (seen : KeysSeen) (position : Nat) : Option KeysSeen := do
  let index ← loadLe32 evidence.output (indexOffset position)
  let actual ← loadLe64 evidence.output (keyOffset position)
  let expected ← loadLe64 evidence.input (index * 8)
  let delta := actual ^^^ expected
  if delta = 0 then return seen
  else return {
    firstPosition := some (seen.firstPosition.getD position)
    firstOffset := if seen.firstPosition.isNone then keyOffset position + countrZero delta / 8
      else seen.firstOffset
    lastOffset := keyOffset position + (kWordBits - 1 - countlZero delta) / 8
    popcount := (seen.popcount + popcount delta) % 2 ^ 64 }

/-- The bytes of the window: those of the keys the indices name, and those of the output. -/
def keysWindow (evidence : UnitEvidence) (windowOffset : Nat) : Option (List UInt8 × List UInt8) :=
  let windowEnd := min kIndexRegionOffset (windowOffset + kMaxWindowBytes)
  (List.range' windowOffset (windowEnd - windowOffset)).foldlM
    (fun window position => do
      let index ← loadLe32 evidence.output (indexOffset (position / kKeyBytes))
      let expected ← evidence.input[index * 8 + position % 8]?
      let actual ← evidence.output[position]?
      return (window.1 ++ [expected], window.2 ++ [actual]))
    ([], [])

def checkKeys (evidence : UnitEvidence) : Option (Option Integrity.Verdict) := do
  let seen ← (List.range kKeys).foldlM (checkKey evidence) {}
  match seen.firstPosition with
  | none => return none
  | some firstPosition =>
    let windowOffset := seen.firstOffset / kWordBytes.toNat * kWordBytes.toNat
    let (expected, actual) ← keysWindow evidence windowOffset
    let named ← loadLe32 evidence.output (indexOffset firstPosition)
    let difference : Difference := {
      domain := kStored
      firstOffset := UInt64.ofNat seen.firstOffset
      lastOffset := UInt64.ofNat seen.lastOffset
      popcount := UInt64.ofNat seen.popcount
      windowOffset := UInt64.ofNat windowOffset
      expected := expected
      actual := actual }
    return some (.exactMismatch (bytesOf ("key differs from input key " ++ toString named ++
      " at position " ++ toString firstPosition)) (some difference) (UInt64.ofNat kKeys))

def entryAt (output : List UInt8) (position : Nat) : Option Entry := do
  let key ← loadLe64 output (keyOffset position)
  let index ← loadLe32 output (indexOffset position)
  return ⟨key, index⟩

def checkEntry (output : List UInt8) (before : Entry) (position : Nat) :
    Option (Except Integrity.Verdict Entry) := do
  let entry ← entryAt output position
  if !precedes before entry then
    return .error (.exactMismatch (bytesOf ("order broken at position " ++ toString position)) none
      (UInt64.ofNat kKeys))
  else return .ok entry

def checkOrder (output : List UInt8) : Option (Except Integrity.Verdict Entry) :=
  (entryAt output 0).bind fun before =>
    foldUntil (checkEntry output) (List.range' 1 (kKeys - 1)) before

/-- The verdict on a unit. A read outside of the evidence or the scratch has none. -/
def check (evidence : UnitEvidence) (scratch : Option (List Nat)) : Option Integrity.Verdict :=
  if evidence.input.length ≠ kInputBytes ∨ evidence.output.length ≠ kOutputBytes then
    some (unchecked "sort unit" "evidence is not a sort unit's input and output size")
  else
    match scratch with
    | none =>
      some (unchecked "sort indices" "no memory for the permutation check's scratch")
    | some scratch =>
      let seen := scratch.map fun _ => 0
      match checkIndices evidence.output seen with
      | none => none
      | some (.error bad) => some bad
      | some (.ok _) =>
        match checkKeys evidence with
        | none => none
        | some (some bad) => some bad
        | some none =>
          match checkOrder evidence.output with
          | none => none
          | some (.error bad) => some bad
          | some (.ok _) => some (.agreement (UInt64.ofNat kKeys))

section Check

variable {input output : List UInt8} {source key index : Nat → Nat}

structure EvidenceWords (input output : List UInt8) (source key index : Nat → Nat) : Prop where
  input : Holds kKeyBytes input kKeys source
  keys : Holds kKeyBytes (output.take kIndexRegionOffset) kKeys key
  indices : Holds kIndexBytes (output.drop kIndexRegionOffset) kKeys index

theorem exists_evidenceWords (hi : input.length = kInputBytes) (ho : output.length = kOutputBytes) :
    ∃ source key index, EvidenceWords input output source key index := by
  have hkeys : (output.take kIndexRegionOffset).length = kKeys * kKeyBytes := by
    rw [length_take, ho]
    rfl
  have hindices : (output.drop kIndexRegionOffset).length = kKeys * kIndexBytes := by
    rw [length_drop, ho]
    rfl
  exact ⟨_, _, _, holds_of_length kKeyBytes hi, holds_of_length kKeyBytes hkeys,
    holds_of_length kIndexBytes hindices⟩

section

variable (w : EvidenceWords input output source key index)
include w

theorem EvidenceWords.loadKey {j : Nat}
    (hj : j < kKeys) : loadLe64 output (keyOffset j) = some (key j) := by
  have hbound : j * kKeyBytes + kKeyBytes ≤ (output.take kIndexRegionOffset).length := by
    rw [w.keys.size]
    exact word_bound kKeyBytes hj
  rw [loadLe64, keyOffset, ← w.keys.load j hj, ← loadWord_append_left hbound, take_append_drop]

theorem EvidenceWords.loadIndex {j : Nat}
    (hj : j < kKeys) : loadLe32 output (indexOffset j) = some (index j) := by
  have hload := loadWord_append_right kIndexBytes (output.take kIndexRegionOffset)
    (output.drop kIndexRegionOffset) (j * kIndexBytes)
  rw [take_append_drop, w.keys.size] at hload
  rw [loadLe32, indexOffset, ← w.indices.load j hj, ← hload]
  rfl

theorem EvidenceWords.loadSource {i : Nat}
    (hi : i < kKeys) : loadLe64 input (i * 8) = some (source i) := w.input.load i hi

theorem isStableSort_iff :
    IsStableSort input output ↔ SortedModulo kKeys source (256 ^ kKeyBytes) key index := by
  constructor
  · intro h
    refine ⟨?_, ?_⟩
    · intro j hj
      obtain ⟨k, i, hk, hi, hlt, hsource⟩ := h.entry j hj
      rw [w.loadKey hj] at hk
      rw [w.loadIndex hj] at hi
      cases hk
      cases hi
      refine ⟨hlt, ?_⟩
      have hload : loadLe64 input (index j * kKeyBytes) = some (source (index j)) :=
        w.input.load (index j) hlt
      rw [hload] at hsource
      exact (some.inj hsource).symm
    · intro i j hij hj
      have hi := Nat.lt_trans hij hj
      rw [Nat.mod_eq_of_lt (w.keys.lt i hi), Nat.mod_eq_of_lt (w.keys.lt j hj)]
      exact h.ordered i j hij hj _ _ _ _ (w.loadKey hi) (w.loadIndex hi) (w.loadKey hj)
        (w.loadIndex hj)
  · intro h
    have hsort := isStableSort_of_sorted w.input w.keys w.indices h
    rwa [take_append_drop] at hsort

end

def Disagrees (verdict : Integrity.Verdict) : Prop := ∀ blocks, verdict ≠ .agreement blocks

/-- The bits of the scratch are set for the indices of the positions before. -/
structure SeenBits (index : Nat → Nat) (k : Nat) (seen : List Nat) : Prop where
  size : seen.length = kSeenWords
  bits : ∀ one < kKeys, (seen.getD (one / kWordBits) 0).testBit (one % kWordBits) = true ↔
    ∃ i < k, index i = one

theorem word_lt {one : Nat} (h : one < kKeys) : one / kWordBits < kSeenWords := by
  rw [kKeys_eq] at h
  show one / 64 < 131072 / 64
  omega

theorem and_bit_ne_zero (word bit : Nat) : word &&& 1 <<< bit ≠ 0 ↔ word.testBit bit = true := by
  rw [Nat.one_shiftLeft, Nat.and_two_pow]
  have hpow := Nat.two_pow_pos bit
  cases word.testBit bit
  · simp
  · simp only [Bool.toNat_true, Nat.one_mul, ne_eq, iff_true]
    omega

theorem seenBits_set {k : Nat} {seen : List Nat} (h : SeenBits index k seen)
    (hk : index k < kKeys) :
    SeenBits index (k + 1) (seen.set (index k / kWordBits)
      (seen.getD (index k / kWordBits) 0 ||| 1 <<< (index k % kWordBits))) := by
  refine ⟨by rw [length_set, h.size], ?_⟩
  intro one hone
  have hword : index k / kWordBits < seen.length := by
    rw [h.size]
    exact word_lt hk
  have hbits := h.bits one hone
  have hsplit : (∃ i < k + 1, index i = one) ↔ (∃ i < k, index i = one) ∨ index k = one := by
    constructor
    · intro hexists
      obtain ⟨i, hi, heq⟩ := hexists
      by_cases hlast : i = k
      · exact .inr (hlast ▸ heq)
      · exact .inl ⟨i, by omega, heq⟩
    · intro hor
      rcases hor with ⟨i, hi, heq⟩ | heq
      · exact ⟨i, by omega, heq⟩
      · exact ⟨k, by omega, heq⟩
  rw [hsplit, ← hbits]
  by_cases hsame : index k / kWordBits = one / kWordBits
  · rw [← hsame, getD_eq_getElem?_getD, getElem?_set_self hword, getD_some,
      Nat.testBit_or, Nat.one_shiftLeft, Nat.testBit_two_pow, Bool.or_eq_true, decide_eq_true_iff]
    have hiff : index k % kWordBits = one % kWordBits ↔ index k = one := by
      constructor
      · intro hmod
        rw [← Nat.div_add_mod (index k) kWordBits, ← Nat.div_add_mod one kWordBits, hsame, hmod]
      · intro heq
        rw [heq]
    rw [hiff]
  · have hne : index k ≠ one := fun heq => hsame (by rw [heq])
    rw [getD_eq_getElem?_getD, getElem?_set_ne hsame, ← getD_eq_getElem?_getD]
    simp [hne]

section

variable (w : EvidenceWords input output source key index)
include w

theorem checkIndices_spec {seen : List Nat}
    (hs : seen.length = kSeenWords) (hz : ∀ word ∈ seen, word = 0) :
    (∃ seen', checkIndices output seen = some (.ok seen') ∧
        ∀ k < kKeys, index k < kKeys ∧ ∀ i < k, index i ≠ index k) ∨
      ∃ bad, checkIndices output seen = some (.error bad) ∧ Disagrees bad ∧
        ¬∀ k < kKeys, index k < kKeys ∧ ∀ i < k, index i ≠ index k := by
  apply foldUntil_range'_spec (fun k => index k < kKeys ∧ ∀ i < k, index i ≠ index k) Disagrees
    (SeenBits index)
  · intro k hk seen hinv hgood
    rw [Nat.zero_add]
    have hword : index k / kWordBits < seen.length := hinv.size ▸ word_lt hgood.1
    have hbit : ¬(seen.getD (index k / kWordBits) 0 &&& 1 <<< (index k % kWordBits) ≠ 0) := by
      rw [and_bit_ne_zero, hinv.bits (index k) hgood.1]
      intro hexists
      obtain ⟨i, hi, heq⟩ := hexists
      exact hgood.2 i hi heq
    refine ⟨_, ?_, seenBits_set hinv hgood.1⟩
    simp only [checkIndex, w.loadIndex hk, bind_eq_bind, bind_some,
      if_neg (Nat.not_le.mpr hgood.1), getElem?_eq_getElem hword]
    rw [getD_eq_getElem _ _ hword] at hbit ⊢
    rw [if_neg hbit]
    rfl
  · intro k hk seen hinv hbad
    rw [Nat.zero_add]
    by_cases hrange : index k < kKeys
    · have hword : index k / kWordBits < seen.length := hinv.size ▸ word_lt hrange
      have hbit : seen.getD (index k / kWordBits) 0 &&& 1 <<< (index k % kWordBits) ≠ 0 := by
        rw [and_bit_ne_zero, hinv.bits (index k) hrange]
        by_contra hnone
        exact hbad ⟨hrange, fun i hi heq => hnone ⟨i, hi, heq⟩⟩
      refine ⟨indicesMismatch "index repeated at position " k, ?_, nofun⟩
      simp only [checkIndex, w.loadIndex hk, bind_eq_bind, bind_some,
        if_neg (Nat.not_le.mpr hrange), getElem?_eq_getElem hword]
      rw [getD_eq_getElem _ _ hword] at hbit
      rw [if_pos hbit]
      rfl
    · refine ⟨indicesMismatch "index out of range at position " k, ?_, nofun⟩
      simp only [checkIndex, w.loadIndex hk, bind_eq_bind, bind_some, if_pos (Nat.not_lt.mp hrange)]
      rfl
  · refine ⟨hs, ?_⟩
    intro one hone
    have hzero : seen.getD (one / kWordBits) 0 = 0 := by
      have hword : one / kWordBits < seen.length := hs ▸ word_lt hone
      rw [getD_eq_getElem _ _ hword]
      exact hz _ (getElem_mem hword)
    rw [hzero, Nat.zero_testBit]
    refine ⟨nofun, ?_⟩
    intro hexists
    obtain ⟨i, hi, _⟩ := hexists
    exact absurd hi (Nat.not_lt_zero i)

theorem checkKeys_spec (unit : UInt64)
    (hr : ∀ k < kKeys, index k < kKeys) :
    (checkKeys ⟨unit, input, output⟩ = some none ∧ ∀ k < kKeys, key k = source (index k)) ∨
      (¬∀ k < kKeys, key k = source (index k)) ∧ ∀ verdict,
        checkKeys ⟨unit, input, output⟩ = some verdict → ∃ bad, verdict = some bad ∧ Disagrees bad := by
  obtain ⟨seen, hloop, hfirst⟩ : ∃ seen, (range kKeys).foldlM
      (checkKey ⟨unit, input, output⟩) {} = some seen ∧
        (seen.firstPosition = none ↔ ∀ k < kKeys, key k = source (index k)) := by
    apply foldlM_range_spec (fun k (seen : KeysSeen) =>
      seen.firstPosition = none ↔ ∀ i < k, key i = source (index i))
    · intro k hk seen hinv
      have hsucc : (∀ i < k + 1, key i = source (index i)) ↔
          (∀ i < k, key i = source (index i)) ∧ key k = source (index k) :=
        Nat.forall_lt_succ_right
      simp only [checkKey, w.loadIndex hk, w.loadKey hk, w.loadSource (hr k hk), bind_eq_bind,
        bind_some]
      by_cases hsame : key k = source (index k)
      · rw [if_pos (Nat.xor_eq_zero_iff.mpr hsame)]
        refine ⟨seen, rfl, ?_⟩
        rw [hsucc, hinv]
        exact ⟨fun hall => ⟨hall, hsame⟩, And.left⟩
      · rw [if_neg (fun hzero => hsame (Nat.xor_eq_zero_iff.mp hzero))]
        refine ⟨_, rfl, nofun, ?_⟩
        intro hall
        exact absurd (hsucc.mp hall).2 hsame
    · exact ⟨fun _ i hi => absurd hi (Nat.not_lt_zero i), fun _ => rfl⟩
  cases hpos : seen.firstPosition with
  | none =>
    refine .inl ⟨?_, hfirst.mp hpos⟩
    simp [checkKeys, hloop, hpos]
  | some first =>
    refine .inr ⟨?_, ?_⟩
    · intro hall
      rw [hfirst.mpr hall] at hpos
      cases hpos
    · intro verdict hverdict
      simp only [checkKeys, hloop, bind_eq_bind, bind_some, hpos, Option.pure_def,
        bind_eq_some_iff] at hverdict
      obtain ⟨window, _, named, _, heq⟩ := hverdict
      cases heq
      exact ⟨_, rfl, nofun⟩

omit w in
theorem precedes_iff (lhs rhs : Entry) : precedes lhs rhs = true ↔
    lhs.key < rhs.key ∨ lhs.key = rhs.key ∧ lhs.index < rhs.index := by
  simp only [precedes, Bool.or_eq_true, Bool.and_eq_true, decide_eq_true_iff, beq_iff_eq]

theorem checkOrder_spec :
    (∃ entry, checkOrder output = some (.ok entry) ∧ ∀ k < kKeys - 1,
        precedes ⟨key k, index k⟩ ⟨key (k + 1), index (k + 1)⟩ = true) ∨
      ∃ bad, checkOrder output = some (.error bad) ∧ Disagrees bad ∧ ¬∀ k < kKeys - 1,
        precedes ⟨key k, index k⟩ ⟨key (k + 1), index (k + 1)⟩ = true := by
  have hentry : ∀ j < kKeys, entryAt output j = some ⟨key j, index j⟩ := by
    intro j hj
    simp [entryAt, w.loadKey hj, w.loadIndex hj]
  rw [checkOrder, hentry 0 (by decide), bind_some]
  apply foldUntil_range'_spec
    (fun k => precedes ⟨key k, index k⟩ ⟨key (k + 1), index (k + 1)⟩ = true) Disagrees
    (fun k (entry : Entry) => entry = ⟨key k, index k⟩)
  · intro k hk entry hinv hgood
    refine ⟨⟨key (k + 1), index (k + 1)⟩, ?_, rfl⟩
    rw [Nat.add_comm 1 k, checkEntry, hentry (k + 1) (by omega), hinv]
    simp [hgood]
  · intro k hk entry hinv hbad
    refine ⟨.exactMismatch (bytesOf ("order broken at position " ++ toString (k + 1))) none
      (UInt64.ofNat kKeys), ?_, nofun⟩
    rw [Bool.not_eq_true] at hbad
    rw [Nat.add_comm 1 k, checkEntry, hentry (k + 1) (by omega), hinv]
    simp [hbad]
  · rfl

theorem sorted_iff_steps :
    SortedModulo kKeys source (256 ^ kKeyBytes) key index ↔
      (∀ k < kKeys, index k < kKeys ∧ ∀ i < k, index i ≠ index k) ∧
      (∀ k < kKeys, key k = source (index k)) ∧
      ∀ k < kKeys - 1, precedes ⟨key k, index k⟩ ⟨key (k + 1), index (k + 1)⟩ = true := by
  have hmod : ∀ j < kKeys, key j % 256 ^ kKeyBytes = key j :=
    fun j hj => Nat.mod_eq_of_lt (w.keys.lt j hj)
  constructor
  · intro h
    refine ⟨?_, fun k hk => (h.named k hk).2, ?_⟩
    · intro k hk
      refine ⟨(h.named k hk).1, ?_⟩
      intro i hi
      exact h.index_ne hi hk
    · intro k hk
      have hordered := h.ordered k (k + 1) (Nat.lt_succ_self k) (by omega)
      rw [hmod k (by omega), hmod (k + 1) (by omega)] at hordered
      rw [precedes_iff]
      exact hordered
  · intro h
    obtain ⟨hindices, hkeys, horder⟩ := h
    refine ⟨fun j hj => ⟨(hindices j hj).1, hkeys j hj⟩, ?_⟩
    have hchain : ∀ j < kKeys, ∀ i < j, key i < key j ∨ key i = key j ∧ index i < index j := by
      intro j
      induction j with
      | zero =>
        intro _ i hi
        exact absurd hi (Nat.not_lt_zero i)
      | succ j ih =>
        intro hj i hi
        have hlast := (precedes_iff _ _).mp (horder j (by omega))
        by_cases hij : i = j
        · rw [hij]
          exact hlast
        · have hbefore := ih (by omega) i (by omega)
          simp only at hlast
          omega
    intro i j hij hj
    rw [hmod i (Nat.lt_trans hij hj), hmod j hj]
    exact hchain j hj i hij

end

theorem check_agrees_iff (unit : UInt64) (hi : input.length = kInputBytes) (scratch : List Nat)
    (hs : scratch.length = kSeenWords) :
    Agrees (check ⟨unit, input, output⟩ (some scratch)) ↔ IsStableSort input output := by
  by_cases ho : output.length = kOutputBytes
  · obtain ⟨source, key, index, w⟩ := exists_evidenceWords hi ho
    have hsize : ¬(input.length ≠ kInputBytes ∨ output.length ≠ kOutputBytes) := by
      rw [hi, ho]
      exact fun h => h.elim (fun h => h rfl) (fun h => h rfl)
    rw [isStableSort_iff w, sorted_iff_steps w, check]
    simp only [if_neg hsize]
    have hseen : (scratch.map fun _ => 0).length = kSeenWords := by rw [length_map, hs]
    have hzero : ∀ word ∈ scratch.map fun _ => 0, word = 0 := by
      intro word hmem
      obtain ⟨_, _, heq⟩ := mem_map.mp hmem
      exact heq.symm
    rcases checkIndices_spec w hseen hzero with ⟨seen, hindices, hall⟩ | ⟨bad, hindices, hbad, hnot⟩
    · simp only [hindices]
      rcases checkKeys_spec w unit fun k hk => (hall k hk).1 with ⟨hkeys, hsame⟩ | ⟨hnot, hverdict⟩
      · simp only [hkeys]
        rcases checkOrder_spec w with ⟨entry, horder, hordered⟩ | ⟨bad, horder, hbad, hnot⟩
        · simp only [horder]
          exact ⟨fun _ => ⟨hall, hsame, hordered⟩, fun _ => ⟨_, rfl⟩⟩
        · simp only [horder]
          constructor
          · intro hagrees
            obtain ⟨blocks, hblocks⟩ := hagrees
            exact absurd (some.inj hblocks) (hbad blocks)
          · intro hsteps
            exact absurd hsteps.2.2 hnot
      · constructor
        · intro hagrees
          obtain ⟨blocks, hblocks⟩ := hagrees
          cases hkeys : checkKeys ⟨unit, input, output⟩ with
          | none =>
            rw [hkeys] at hblocks
            cases hblocks
          | some verdict =>
            obtain ⟨bad, heq, hbad⟩ := hverdict verdict hkeys
            rw [hkeys, heq] at hblocks
            exact absurd (some.inj hblocks) (hbad blocks)
        · intro hsteps
          exact absurd hsteps.2.1 hnot
    · simp only [hindices]
      constructor
      · intro hagrees
        obtain ⟨blocks, hblocks⟩ := hagrees
        exact absurd (some.inj hblocks) (hbad blocks)
      · intro hsteps
        exact absurd hsteps.1 hnot
  · constructor
    · intro hagrees
      obtain ⟨blocks, hblocks⟩ := hagrees
      rw [check, if_pos (.inr ho)] at hblocks
      cases hblocks
    · intro h
      exact absurd h.size ho

end Check

structure OneSpecification (input : List UInt8) : Prop where
  sorts : ∀ chunks, isChunkCount chunks = true → ∀ orders,
    (∀ run, IsOrder chunks.toNat (orders run)) → ∀ output scratch,
    output.length = kOutputBytes → kSideBytes + countersBytes chunks.toNat ≤ scratch.length →
    ∃ sorted, compute chunks.toNat orders input output scratch = some sorted ∧
      IsStableSort input sorted ∧ ∀ other, IsStableSort input other → other = sorted
  judges : ∀ unit output scratch, scratch.length = kSeenWords →
    (Agrees (check ⟨unit, input, output⟩ (some scratch)) ↔ IsStableSort input output)

theorem isStableSort_unique {input output other : List UInt8} (hi : input.length = kInputBytes)
    (h : IsStableSort input output) (h' : IsStableSort input other) : other = output := by
  obtain ⟨source, key, index, w⟩ := exists_evidenceWords hi h.size
  obtain ⟨source', key', index', w'⟩ := exists_evidenceWords hi h'.size
  have hsource : ∀ i < kKeys, source' i = source i := by
    intro i hi
    have hload := w.loadSource hi
    rw [w'.loadSource hi] at hload
    exact some.inj hload
  have hsorted := (isStableSort_iff w).mp h
  have hsorted' := ((isStableSort_iff w').mp h').congr_source hsource
  have hsame := hsorted'.unique hsorted
  rw [← take_append_drop kIndexRegionOffset other,
    ← take_append_drop kIndexRegionOffset output,
    (w'.keys.congr fun j hj => (hsame j hj).1).unique w.keys,
    (w'.indices.congr fun j hj => (hsame j hj).2).unique w.indices]

/-- The parallel sort leaves the one output its oracle agrees to. -/
theorem sort_and_oracle_have_one_specification (input : List UInt8)
    (hi : input.length = kInputBytes) : OneSpecification input := by
  refine ⟨?_, ?_⟩
  · intro chunks hc orders ho output scratch hout hs
    obtain ⟨sorted, hcompute, hsorted⟩ := compute_spec hc ho hi hout hs
    exact ⟨sorted, hcompute, hsorted, fun other h => isStableSort_unique hi hsorted h⟩
  · intro unit output scratch hs
    exact check_agrees_iff unit hi scratch hs

/-- Equal keys, all of them. -/
theorem zeros_have_one_specification : OneSpecification (List.replicate kInputBytes 0) :=
  sort_and_oracle_have_one_specification _ length_replicate

end LoadForge.Verification.Sort
