import LoadForge.Verification.ControlState

namespace LoadForge.Verification

open LoadForge.Core Framework List

/-- A copy that passes its checksum and holds these words. -/
def holds (words : ControlWords) (decoded : Decoded) : Bool :=
  decoded.verified && decoded.words == words

variable (words : ControlWords)

theorem holds_iff (decoded : Decoded) : holds words decoded = true ↔ decoded = ⟨words, true⟩ := by
  cases decoded with
  | mk words' verified => cases verified <;> simp [holds]

theorem wordsBytes_length : (wordsBytes words).length = kWordsBytes := by
  simp [wordsBytes, ControlWords.toList, kWordsBytes, kControlWords]

theorem wordAt_encodeControl (index : Nat) (hi : index < 6) :
    wordAt (encodeControl words).1 index = words.toList[index] := by
  have hlen : (wordsBytes words).length = 48 := wordsBytes_length words
  have hlt : (words.toList[index]).toNat < 256 ^ 8 := (words.toList[index]).toNat_lt
  have hdrop : (encodeControl words).1.drop (8 * index) =
      (words.toList.drop index).flatMap (fun word => leBytes 8 word.toNat) ++
        leBytes 4 (crc32 (wordsBytes words)).toNat := by
    rw [encodeControl, drop_append_of_le_length (by omega), wordsBytes,
      drop_flatMap (fun word : UInt64 => leBytes 8 word.toNat) 8 fun _ => leBytes_length 8 _]
  have hcons : words.toList.drop index = words.toList[index] :: words.toList.drop (index + 1) :=
    drop_eq_getElem_cons hi
  simp [wordAt, hdrop, hcons, leNat_leBytes_of_lt 8 _ hlt]

theorem decodeControl_encodeControl : decodeControl (encodeControl words) = ⟨words, true⟩ := by
  have hlen : (wordsBytes words).length = kWordsBytes := wordsBytes_length words
  have hat := wordAt_encodeControl words
  have htake : (encodeControl words).1.take kWordsBytes = wordsBytes words := take_left' hlen
  have hdrop : (encodeControl words).1.drop kWordsBytes =
      leBytes 4 (crc32 (wordsBytes words)).toNat := drop_left' hlen
  have hsum := leNat_leBytes_of_lt 4 _ (crc32 (wordsBytes words)).toNat_lt
  rw [decodeControl, hat 0 (by omega), hat 1 (by omega), hat 2 (by omega), hat 3 (by omega),
    hat 4 (by omega), hat 5 (by omega), htake, hdrop, hsum]
  simp [ControlWords.toList]

variable (ds : List Decoded)

theorem agreed_eq_some (words : ControlWords) (h : agreed ds = some words) :
    2 ≤ ds.countP (holds words) := by
  induction ds with
  | nil => cases h
  | cons d ds ih =>
    simp only [agreed] at h
    split_ifs at h with hagree
    · cases h
      obtain ⟨hverified, other, hmem, hother⟩ : d.verified = true ∧ ∃ other ∈ ds,
          other.verified = true ∧ other.words = d.words := by
        simpa using hagree
      have hself : holds d.words d = true := by simp [holds, hverified]
      have hrest : 0 < ds.countP (holds d.words) := by
        apply countP_pos_iff.mpr
        exact ⟨other, hmem, by simp [holds, hother.1, hother.2]⟩
      rw [countP_cons_of_pos hself]
      omega
    · have hle : ds.countP (holds words) ≤ (d :: ds).countP (holds words) := by
        rw [countP_cons]
        omega
      exact Nat.le_trans (ih h) hle

theorem agreed_eq_none (h : agreed ds = none) (words : ControlWords) :
    ds.countP (holds words) ≤ 1 := by
  induction ds with
  | nil => simp
  | cons d ds ih =>
    simp only [agreed] at h
    split_ifs at h with hagree
    by_cases hself : holds words d = true
    · have hd : d = ⟨words, true⟩ := (holds_iff words d).mp hself
      have hrest : ds.countP (holds words) = 0 := by
        apply countP_eq_zero.mpr
        intro other hmem hother
        apply hagree
        rw [holds_iff] at hother
        simp only [hd, Bool.true_and, any_eq_true]
        exact ⟨other, hmem, by simp [hother]⟩
      have hcount : (d :: ds).countP (holds words) = ds.countP (holds words) + 1 :=
        countP_cons_of_pos hself
      omega
    · rw [countP_cons_of_neg hself]
      exact ih h

theorem countP_holds_add_le (words words' : ControlWords) (hne : words ≠ words') :
    ds.countP (holds words) + ds.countP (holds words') ≤ ds.length := by
  induction ds with
  | nil => simp
  | cons d ds ih =>
    have hboth : ¬ (holds words d = true ∧ holds words' d = true) := by
      intro h
      have hw := (holds_iff words d).mp h.1
      rw [(holds_iff words' d).mp h.2] at hw
      cases hw
      exact hne rfl
    simp only [countP_cons, length_cons]
    split_ifs with h1 h2
    · exact absurd ⟨h1, h2⟩ hboth
    · omega
    · omega
    · omega

/-- Among three copies the value of two verified ones is the only one there can be. -/
theorem agreed_of_two (words : ControlWords) (hl : ds.length = kCopies)
    (h : 2 ≤ ds.countP (holds words)) : agreed ds = some words := by
  cases hagreed : agreed ds with
  | none =>
    have hone := agreed_eq_none ds hagreed words
    omega
  | some words' =>
    have htwo := agreed_eq_some ds words' hagreed
    by_contra hne
    have hdiff : words ≠ words' := fun h => hne (by rw [h])
    have hsum := countP_holds_add_le ds words words' hdiff
    have hthree : kCopies = 3 := rfl
    omega

/-- The search among the copies: the first two are the candidates, each against those after it. -/
def decidedBy (decoded : List Decoded) : Option ControlWords :=
  [0, 1].foldl (fun decided candidate =>
    match decided, decoded[candidate]? with
    | none, some held =>
      if held.verified then
        (decoded.drop (candidate + 1)).foldl (fun decided other =>
          if other.verified && other.words == held.words then some held.words else decided) none
      else none
    | decided, _ => decided) none

def ControlState.writeCopy (state : ControlState) (copy : Nat) (words : ControlWords) :
    ControlState :=
  state.strike copy (encodeControl words)

def ControlState.repairCopy (words : ControlWords) (state : ControlState) (copy : Nat × Decoded) :
    ControlState :=
  if !copy.2.verified || copy.2.words != words then
    { state.writeCopy copy.1 words with repairs := state.repairs + 1 }
  else state

/-- The vote as it is carried out, on the memory of the three copies. -/
def ControlState.vote (state : ControlState) : Except VoteFailure ControlWords × ControlState :=
  let decoded := state.copies.map decodeControl
  let verified := decoded.map (·.verified)
  if decoded.countP (·.verified) < 2 then (.error ⟨.kTooFewVerified, verified⟩, state)
  else
    match decidedBy decoded with
    | none => (.error ⟨.kDisagreement, verified⟩, state)
    | some words =>
      (.ok words, (decoded.zipIdx.map fun (d, copy) => (copy, d)).foldl
        (ControlState.repairCopy words) state)

theorem decidedBy_eq_agreed (a b c : Decoded) : decidedBy [a, b, c] = agreed [a, b, c] := by
  simp only [decidedBy, agreed, foldl_cons, foldl_nil, getElem?_cons_zero,
    getElem?_cons_succ, drop_succ_cons, drop_zero, any_cons, any_nil,
    Bool.or_false, Bool.and_false, Bool.false_eq_true, if_false]
  cases ha : a.verified with
  | false => cases hb : b.verified <;> simp [hb]
  | true =>
    by_cases hab : (b.verified && b.words == a.words) = true
    · by_cases hac : (c.verified && c.words == a.words) = true
      · simp [hab, hac]
      · simp [hab, hac]
    · by_cases hac : (c.verified && c.words == a.words) = true
      · simp [hab, hac]
      · cases hb : b.verified with
        | false => simp [hac, hb]
        | true =>
          have hne : ¬ b.words = a.words := by simpa [hb] using hab
          simp [hac, hb, hne]

variable (state : ControlState)

theorem repairCopy_eq (copy : Nat) (stored : Stored) :
    ControlState.repairCopy words state (copy, decodeControl stored) =
      if holds words (decodeControl stored) then state
      else { state.strike copy (encodeControl words) with repairs := state.repairs + 1 } := by
  have hnot : (!(decodeControl stored).verified || (decodeControl stored).words != words) =
      !holds words (decodeControl stored) := by
    simp [holds, bne]
  simp only [ControlState.repairCopy, hnot]
  cases holds words (decodeControl stored) with
  | true => rfl
  | false => rfl

theorem foldl_repairCopy (x y z : Stored) (repairs : UInt64) (three : [x, y, z].length = kCopies) :
    [(0, decodeControl x), (1, decodeControl y), (2, decodeControl z)].foldl
        (ControlState.repairCopy words) ⟨[x, y, z], repairs, three⟩ =
      (⟨[x, y, z], repairs, three⟩ : ControlState).repair words := by
  have hrepair : (⟨[x, y, z], repairs, three⟩ : ControlState).repair words =
      ⟨[x, y, z].map fun stored =>
          if holds words (decodeControl stored) then stored else encodeControl words,
        repairs + UInt64.ofNat ([x, y, z].countP fun stored => !holds words (decodeControl stored)),
        by simp [kCopies]⟩ := rfl
  rw [hrepair]
  by_cases hx : holds words (decodeControl x) = true <;>
    by_cases hy : holds words (decodeControl y) = true <;>
    by_cases hz : holds words (decodeControl z) = true <;>
    simp [repairCopy_eq, ControlState.strike, hx, hy, hz, UInt64.add_assoc]

/-- Carried out on the copies, the vote decides what the copies say and changes them only then. -/
theorem vote_eq_read :
    state.vote = match state.read with
      | .ok (words, after) => (.ok words, after)
      | .error failure => (.error failure, state) := by
  obtain ⟨copies, repairs, three⟩ := state
  obtain ⟨x, y, z, rfl⟩ := length_eq_three.mp three
  simp only [ControlState.vote, ControlState.read, map_cons, map_nil, decidedBy_eq_agreed]
  split_ifs with hfew
  · rfl
  · cases agreed [decodeControl x, decodeControl y, decodeControl z] with
    | none => rfl
    | some words =>
      simp only [zipIdx_cons, zipIdx_nil, map_cons, map_nil]
      rw [← foldl_repairCopy words x y z repairs three]

def AllDiffer (decoded : List Decoded) : Prop :=
  decoded.Pairwise fun a b => ¬ (a.verified = true ∧ b.verified = true ∧ a.words = b.words)

theorem agreed_none_differ (h : agreed ds = none) : AllDiffer ds := by
  induction ds with
  | nil => exact Pairwise.nil
  | cons d ds ih =>
    simp only [agreed] at h
    split_ifs at h with hagree
    apply Pairwise.cons
    · intro other hmem hboth
      apply hagree
      simp only [hboth.1, Bool.true_and, any_eq_true]
      exact ⟨other, hmem, by simp [hboth.2.1, hboth.2.2]⟩
    · exact ih h

section

variable (words : ControlWords)

theorem repair_holds :
    ∀ stored ∈ (state.repair words).copies, decodeControl stored = ⟨words, true⟩ := by
  intro stored hmem
  simp only [ControlState.repair, mem_map] at hmem
  obtain ⟨before, -, rfl⟩ := hmem
  have heq : repaired words before =
      if holds words (decodeControl before) then before else encodeControl words := rfl
  rw [heq]
  split_ifs with hholds
  · exact (holds_iff words _).mp hholds
  · exact decodeControl_encodeControl words

theorem struck_holds (copy : Nat) (bytes : Stored) :
    2 ≤ (((state.write words).strike copy bytes).copies.map decodeControl).countP
      (holds words) := by
  have hself : holds words (decodeControl (encodeControl words)) = true :=
    (holds_iff words _).mpr (decodeControl_encodeControl words)
  have hcopies : ((state.write words).strike copy bytes).copies =
      [encodeControl words, encodeControl words, encodeControl words].set copy bytes := rfl
  rw [hcopies]
  rcases copy with _ | _ | _ | copy
  · simp [countP_cons, hself]
  · simp [countP_cons, hself]
  · simp [countP_cons, hself]
  · simp [hself]

theorem countP_holds_le : ds.countP (holds words) ≤ ds.countP (·.verified) := by
  apply countP_mono_left
  intro d _ h
  rw [(holds_iff words d).mp h]

theorem read_of_two (h : 2 ≤ (state.copies.map decodeControl).countP (holds words)) :
    state.read = .ok (words, state.repair words) := by
  have hverified := countP_holds_le (state.copies.map decodeControl) words
  have hagreed := agreed_of_two (state.copies.map decodeControl) words
    (by rw [length_map, state.three]) h
  have hfew : ¬ (state.copies.map decodeControl).countP (·.verified) < 2 := by omega
  simp only [ControlState.read, if_neg hfew, hagreed]

end

/-- One bad copy is masked, and over any contents a value two verified copies hold is decided and
written again, or nothing changes. -/
theorem vote_masks_one_copy_and_never_picks :
    (∀ (state : ControlState) (words : ControlWords) (copy : Nat) (bytes : Stored),
      ((state.write words).strike copy bytes).vote.1 = .ok words ∧
        ∀ stored ∈ ((state.write words).strike copy bytes).vote.2.copies,
          decodeControl stored = ⟨words, true⟩) ∧
    ∀ state : ControlState,
      (∃ words, state.vote.1 = .ok words ∧
        2 ≤ (state.copies.map decodeControl).countP (holds words) ∧
        state.vote.2.copies = state.copies.map (fun stored =>
          if holds words (decodeControl stored) then stored else encodeControl words) ∧
        state.vote.2.repairs = state.repairs + UInt64.ofNat
          (state.copies.countP fun stored => !holds words (decodeControl stored))) ∨
      (state.vote.1 = .error ⟨.kTooFewVerified,
          state.copies.map fun stored => (decodeControl stored).verified⟩ ∧
        state.copies.countP (fun stored => (decodeControl stored).verified) < 2 ∧
        state.vote.2 = state) ∨
      (state.vote.1 = .error ⟨.kDisagreement,
          state.copies.map fun stored => (decodeControl stored).verified⟩ ∧
        2 ≤ state.copies.countP (fun stored => (decodeControl stored).verified) ∧
        AllDiffer (state.copies.map decodeControl) ∧ state.vote.2 = state) := by
  constructor
  · intro state words copy bytes
    rw [vote_eq_read, read_of_two _ words (struck_holds state words copy bytes)]
    exact ⟨rfl, repair_holds _ words⟩
  · intro state
    have hverified : (state.copies.map decodeControl).map (·.verified) =
        state.copies.map fun stored => (decodeControl stored).verified := map_map
    have hcount : (state.copies.map decodeControl).countP (·.verified) =
        state.copies.countP fun stored => (decodeControl stored).verified := countP_map
    by_cases hfew : (state.copies.map decodeControl).countP (·.verified) < 2
    · have hread : state.read = .error ⟨.kTooFewVerified,
          state.copies.map fun stored => (decodeControl stored).verified⟩ := by
        rw [← hverified]
        simp only [ControlState.read, if_pos hfew]
      rw [vote_eq_read, hread]
      exact Or.inr (Or.inl ⟨rfl, by rw [← hcount]; exact hfew, rfl⟩)
    · cases hagreed : agreed (state.copies.map decodeControl) with
      | none =>
        have hread : state.read = .error ⟨.kDisagreement,
            state.copies.map fun stored => (decodeControl stored).verified⟩ := by
          rw [← hverified]
          simp only [ControlState.read, if_neg hfew, hagreed]
        rw [vote_eq_read, hread]
        exact Or.inr (Or.inr ⟨rfl, by omega, agreed_none_differ _ hagreed, rfl⟩)
      | some words =>
        have htwo := agreed_eq_some _ words hagreed
        rw [vote_eq_read, read_of_two state words htwo]
        exact Or.inl ⟨words, rfl, htwo, rfl, rfl⟩

end LoadForge.Verification
