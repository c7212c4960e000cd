import LoadForge.Verification.Runner

namespace LoadForge.Worker

open Framework Verification

structure Record where
  type : UInt16
  payload : List UInt8
  deriving DecidableEq

def kTallyFrameType : UInt16 := 17
def kTallyFormatVersion : UInt8 := 1
def kTallyFrameBytes : Nat := 1 + 7 * 8
def kMemoryFrameType : UInt16 := 18
def kMemoryFormatVersion : UInt8 := 1
def kMaxMemoryDetailBytes : Nat := 1024

def countersOf (t : Tally) : List UInt64 :=
  [t.unitsComputed, t.oracleChecked, t.oracleBlocks, t.oracleFailed, t.oracleNotPerformed,
   t.integrityChecked, t.integrityFailed]

def encodeTally (t : Tally) : List UInt8 :=
  kTallyFormatVersion :: (countersOf t).flatMap fun c => leBytes 8 c.toNat

def counterAt (bytes : List UInt8) (index : Nat) : UInt64 :=
  UInt64.ofNat (leNat ((bytes.drop (1 + 8 * index)).take 8))

def decodeTally (bytes : List UInt8) : Except String Tally :=
  if bytes.length ≠ kTallyFrameBytes then
    .error ("tally frame: " ++ toString bytes.length ++ " byte(s), expected " ++
      toString kTallyFrameBytes)
  else if bytes.head? ≠ some kTallyFormatVersion then
    .error ("tally frame: unknown format version " ++ toString (bytes.headD 0))
  else
    .ok ⟨counterAt bytes 0, counterAt bytes 1, counterAt bytes 2, counterAt bytes 3,
      counterAt bytes 4, counterAt bytes 5, counterAt bytes 6⟩

private theorem counterAt_counters (v : UInt8) (cs : List UInt64) (index : Nat)
    (hi : index < cs.length) :
    counterAt (v :: cs.flatMap fun c => leBytes 8 c.toNat) index = cs[index] := by
  have hlt : cs[index].toNat < 256 ^ 8 := cs[index].toNat_lt
  have hl : (leBytes 8 cs[index].toNat).length = 8 := leBytes_length 8 _
  unfold counterAt
  rw [Nat.add_comm 1, List.drop_succ_cons,
    drop_flatMap (fun c : UInt64 => leBytes 8 c.toNat) 8 (fun c => leBytes_length 8 _),
    List.drop_eq_getElem_cons hi, List.flatMap_cons, List.take_left' hl,
    leNat_leBytes_of_lt 8 _ hlt, UInt64.ofNat_toNat]

private theorem flatMap_range_take (width n : Nat) (bytes : List UInt8) :
    ((List.range n).flatMap fun index => (bytes.drop (width * index)).take width) =
      bytes.take (width * n) := by
  induction n with
  | zero => simp
  | succ n ih =>
    rw [List.range_succ, List.flatMap_append, ih, List.flatMap_singleton, Nat.mul_succ,
      List.take_add]

theorem leBytes_counterAt {rest : List UInt8} (hrest : rest.length = 8 * 7) {index : Nat}
    (hindex : index < 7) : leBytes 8 (counterAt (kTallyFormatVersion :: rest) index).toNat =
      (rest.drop (8 * index)).take 8 := by
  have hfield : ((rest.drop (8 * index)).take 8).length = 8 := by
    rw [List.length_take, List.length_drop, hrest]
    omega
  have hlt := leNat_lt ((rest.drop (8 * index)).take 8)
  have hback := leBytes_leNat ((rest.drop (8 * index)).take 8)
  rw [hfield] at hlt hback
  rw [counterAt, Nat.add_comm 1, List.drop_succ_cons, UInt64.toNat_ofNat_of_lt' hlt, hback]

/-- A tally is read from the bytes it is written as, and from no others. -/
theorem tally_frame_has_one_encoding (bytes : List UInt8) (t : Tally) :
    decodeTally bytes = .ok t ↔ bytes = encodeTally t := by
  constructor
  · intro h
    unfold decodeTally at h
    split_ifs at h with hlen hhead
    cases h
    rw [not_not] at hlen hhead
    obtain ⟨rest, rfl⟩ := List.head?_eq_some_iff.mp hhead
    have hrest : rest.length = 8 * 7 := Nat.succ.inj hlen
    have hcounters : (List.range 7).flatMap (fun index =>
        leBytes 8 (counterAt (kTallyFormatVersion :: rest) index).toNat) = rest := by
      rw [List.flatMap_congr fun _ hi => leBytes_counterAt hrest (List.mem_range.mp hi),
        flatMap_range_take, ← hrest, List.take_length]
    exact congrArg (List.cons kTallyFormatVersion) hcounters.symm
  · rintro rfl
    have hlen : (encodeTally t).length = kTallyFrameBytes := by
      simp [encodeTally, countersOf, kTallyFrameBytes, leBytes_length]
    have hhead : (encodeTally t).head? = some kTallyFormatVersion := rfl
    have hat : ∀ (index : Nat) (hi : index < 7),
        counterAt (encodeTally t) index = (countersOf t)[index] :=
      fun index hi => counterAt_counters kTallyFormatVersion (countersOf t) index hi
    unfold decodeTally
    rw [if_neg (not_not_intro hlen), if_neg (not_not_intro hhead), hat 0 (by omega),
      hat 1 (by omega), hat 2 (by omega), hat 3 (by omega), hat 4 (by omega), hat 5 (by omega),
      hat 6 (by omega)]
    rfl

def lockPolicyOf : UInt8 → Option LockPolicy
  | 0 => some .kRequire
  | 1 => some .kTry
  | 2 => some .kNone
  | _ => none

def lockOutcomeOf : UInt8 → Option LockOutcome
  | 0 => some .kLocked
  | 1 => some .kNotLocked
  | 2 => some .kFellBack
  | _ => none

def decodeMemory (bytes : List UInt8) : Except String MemoryLock :=
  match bytes with
  | version :: policy :: outcome :: detail =>
    if version ≠ kMemoryFormatVersion then
      .error ("memory frame: unknown format version " ++ toString version)
    else
      match lockPolicyOf policy with
      | none => .error ("memory frame: unknown lock policy " ++ toString policy)
      | some policy =>
        match lockOutcomeOf outcome with
        | none => .error ("memory frame: unknown lock outcome " ++ toString outcome)
        | some outcome =>
          if kMaxMemoryDetailBytes < detail.length then
            .error ("memory frame: a detail of " ++ toString detail.length ++
              " bytes, at most " ++ toString kMaxMemoryDetailBytes)
          else if detail ≠ [] ∧ outcome ≠ .kFellBack then
            .error "memory frame: a detail on an outcome that has none"
          else .ok ⟨policy, outcome, detail⟩
  | short =>
    .error ("memory frame: " ++ toString short.length ++ " byte(s), expected at least 3")

end LoadForge.Worker
