import LoadForge.Verification.SliceAccount

namespace LoadForge.Verification.Integrity

open Framework List Option UnitCase

def isInput : ErrorRecord → Bool
  | .exact r => r.side == kInput
  | _ => false

@[simp] theorem isInput_withIntegrity (integrity : UInt8) (r : ErrorRecord) :
    isInput (withIntegrity integrity r) = isInput r := by
  cases r <;> rfl

@[simp] theorem isWrongResult_withIntegrity (integrity : UInt8) (r : ErrorRecord) :
    isWrongResult (withIntegrity integrity r) = isWrongResult r := by
  cases r <;> rfl

@[simp] theorem iteration_withIntegrity (integrity : UInt8) (r : ErrorRecord) :
    (provenanceOf (withIntegrity integrity r)).iteration = (provenanceOf r).iteration := by
  cases r <;> rfl

/-- What a check of the oracle counts, against the record it makes. -/
structure CheckCounts (index : UInt64) (answer : Tally × Option ErrorRecord) : Prop where
  unitsComputed : answer.1.unitsComputed = 0
  oracleChecked : answer.1.oracleChecked = 1
  oracleFailed : answer.1.oracleFailed = UInt64.ofNat (answer.2.toList.countP isWrongResult)
  oracleNotPerformed :
    answer.1.oracleNotPerformed = UInt64.ofNat (answer.2.toList.countP fun r => !isWrongResult r)
  integrityChecked : answer.1.integrityChecked = 0
  integrityFailed : answer.1.integrityFailed = 0
  output : ∀ r ∈ answer.2, isInput r = false
  iteration : ∀ r ∈ answer.2, (provenanceOf r).iteration = some index

theorem check_counts (r : IntegrityRunner) (words : ControlWords)
    (verdict : Except String Verdict) :
    CheckCounts words.index (check r words {} verdict) := by
  cases verdict with
  | error thrown => constructor <;> simp [check, noted, notPerformed, isWrongResult, isInput, provenanceOf, provenanceAt]
  | ok verdict =>
    simp only [check]
    split_ifs with hkeeps
    · constructor <;> simp [noted, notPerformed, isWrongResult, isInput, provenanceOf, provenanceAt]
    · cases verdict with
      | agreement blocks => constructor <;> simp [noted]
      | exactMismatch check difference blocks =>
        constructor <;> simp [noted, isWrongResult, isInput, provenanceOf, provenanceAt, kInput, kOutput]
      | boundedMismatch check residual tolerance conditionNumber element blocks =>
        constructor <;> simp [noted, isWrongResult, isInput, provenanceOf, provenanceAt]
      | notChecked what why blocks =>
        constructor <;> simp [noted, notPerformed, isWrongResult, isInput, provenanceOf, provenanceAt]

variable (setup : RunnerSetup) (u : UnitCase)

theorem checking_counts : CheckCounts u.index (u.checking setup) :=
  check_counts (makeSliceRunner setup) (wordsAt setup u.index) u.world.verdict

theorem countP_checkRecords (p : ErrorRecord → Bool)
    (hp : ∀ integrity r, p (withIntegrity integrity r) = p r) :
    (u.checkRecords setup).countP p =
      if u.asked setup then (u.checking setup).2.toList.countP p else 0 := by
  rw [checkRecords]
  split_ifs with hasked
  · cases (u.checking setup).2 with
    | none => rfl
    | some r => simp [countP_cons, hp]
  · rfl

theorem openRecords_isInput :
    (u.openRecords setup).countP isInput = if u.spoilt setup then 1 else 0 := by
  rw [openRecords, spoilt]
  cases u.bracketed setup with
  | false => rfl
  | true =>
    cases u.world.opened with
    | none => rfl
    | some difference => rfl

theorem closeRecords_isInput :
    (u.closeRecords setup).countP isInput =
      if !u.spoilt setup && (u.closing setup).isSome then 1 else 0 := by
  rw [closeRecords]
  cases u.spoilt setup with
  | true => rfl
  | false =>
    cases u.closing setup with
    | none => rfl
    | some difference => rfl

theorem tally_unitsComputed :
    (u.tally setup).get .unitsComputed = UInt64.ofNat (if !u.spoilt setup then 1 else 0) := by
  have hcheck := (checking_counts setup u).unitsComputed
  show (if u.spoilt setup then 0 else 1) +
    (if u.asked setup then (u.checking setup).1 else {}).unitsComputed = _
  cases u.asked setup with
  | true => cases u.spoilt setup <;> simp [hcheck]
  | false => cases u.spoilt setup <;> simp

theorem tally_oracleChecked :
    (u.tally setup).get .oracleChecked = UInt64.ofNat (if u.asked setup then 1 else 0) := by
  have hcheck := (checking_counts setup u).oracleChecked
  show 0 + (if u.asked setup then (u.checking setup).1 else {}).oracleChecked = _
  cases u.asked setup with
  | true => simp [hcheck]
  | false => simp

theorem tally_oracleFailed :
    (u.tally setup).get .oracleFailed =
      UInt64.ofNat ((u.checkRecords setup).countP isWrongResult) := by
  have hcheck := (checking_counts setup u).oracleFailed
  rw [countP_checkRecords setup u _ isWrongResult_withIntegrity]
  show 0 + (if u.asked setup then (u.checking setup).1 else {}).oracleFailed = _
  cases u.asked setup with
  | true => simp [hcheck]
  | false => simp

theorem tally_oracleNotPerformed :
    (u.tally setup).get .oracleNotPerformed =
      UInt64.ofNat ((u.checkRecords setup).countP fun r => !isWrongResult r) := by
  have hcheck := (checking_counts setup u).oracleNotPerformed
  rw [countP_checkRecords setup u _ (fun integrity r => by rw [isWrongResult_withIntegrity])]
  show 0 + (if u.asked setup then (u.checking setup).1 else {}).oracleNotPerformed = _
  cases u.asked setup with
  | true => simp [hcheck]
  | false => simp

theorem tally_integrityChecked :
    (u.tally setup).get .integrityChecked =
      UInt64.ofNat (if u.bracketed setup then 1 else 0) := by
  have hcheck := (checking_counts setup u).integrityChecked
  show (if u.bracketed setup then 1 else 0) +
    (if u.asked setup then (u.checking setup).1 else {}).integrityChecked = _
  cases u.asked setup with
  | true => cases u.bracketed setup <;> simp [hcheck]
  | false => cases u.bracketed setup <;> simp

theorem checkRecords_isInput : (u.checkRecords setup).countP isInput = 0 := by
  rw [countP_checkRecords setup u _ isInput_withIntegrity]
  split_ifs with hasked
  · have hcheck := (checking_counts setup u).output
    cases hrecord : (u.checking setup).2 with
    | none => rfl
    | some r => simp [hcheck r hrecord]
  · rfl

theorem tally_integrityFailed :
    (u.tally setup).get .integrityFailed =
      UInt64.ofNat ((u.records setup).countP isInput) := by
  have hcheck := (checking_counts setup u).integrityFailed
  rw [records, countP_append, countP_append, openRecords_isInput,
    checkRecords_isInput, closeRecords_isInput]
  show (if u.spoilt setup || (u.closing setup).isSome then 1 else 0) +
    (if u.asked setup then (u.checking setup).1 else {}).integrityFailed = _
  cases u.asked setup with
  | true => cases u.spoilt setup <;> cases u.closing setup <;> simp [hcheck]
  | false => cases u.spoilt setup <;> cases u.closing setup <;> simp

theorem checkRecords_length : (u.checkRecords setup).length ≤ if u.asked setup then 1 else 0 := by
  rw [checkRecords]
  split_ifs with hasked
  · cases (u.checking setup).2 with
    | none => simp
    | some r => simp
  · simp

theorem records_iteration : ∀ r ∈ u.records setup, (provenanceOf r).iteration = some u.index := by
  intro r hr
  simp only [records, mem_append] at hr
  rcases hr with (hr | hr) | hr
  · rw [openRecords] at hr
    split_ifs at hr
    · simp only [mem_toList, map_eq_some_iff] at hr
      obtain ⟨difference, -, rfl⟩ := hr
      rfl
    · cases hr
  · rw [checkRecords] at hr
    split_ifs at hr
    · simp only [mem_toList, map_eq_some_iff] at hr
      obtain ⟨checked, hchecked, rfl⟩ := hr
      rw [iteration_withIntegrity]
      exact (checking_counts setup u).iteration checked hchecked
    · cases hr
  · rw [closeRecords] at hr
    split_ifs at hr
    · cases hr
    · simp only [mem_toList, map_eq_some_iff] at hr
      obtain ⟨difference, -, rfl⟩ := hr
      rfl

theorem sum_ite {α : Type} (p : α → Bool) (as : List α) :
    (as.map fun a => if p a then 1 else 0).sum = as.countP p := by
  induction as with
  | nil => rfl
  | cons a as ih => rw [map_cons, sum_cons, ih, countP_cons, Nat.add_comm]

def runSlices (setup : RunnerSetup) (slices : List Slice) : SlicesRun :=
  run SlicesRun.next ⟨makeSliceRunner setup, [], []⟩ slices

/-- The vote before each unit of a run gives the words the runner wrote. -/
def Decided (setup : RunnerSetup) (slices : List Slice) : Prop :=
  Along SlicesRun.next (SliceDecided setup) ⟨makeSliceRunner setup, [], []⟩ slices

/-- Memory spoils at most one copy of the control state before a unit. -/
def SingleCopy (world : UnitWorld) : Prop := ∃ copy, ∀ strike ∈ world.strikes, strike.1 = copy

theorem struck_copies (control : ControlState) (strikes : List (Nat × Stored)) (copy : Nat)
    (h : ∀ strike ∈ strikes, strike.1 = copy) :
    (struck control strikes).copies = control.copies ∨
      ∃ bytes, (struck control strikes).copies = control.copies.set copy bytes := by
  induction strikes generalizing control with
  | nil => exact .inl rfl
  | cons strike strikes ih =>
    have hfirst : (control.strike strike.1 strike.2).copies = control.copies.set copy strike.2 := by
      rw [← h strike mem_cons_self]
      rfl
    have hrest := ih (control.strike strike.1 strike.2) fun other hmem => h other (by simp [hmem])
    rw [hfirst] at hrest
    rcases hrest with hsame | ⟨bytes, hset⟩
    · exact .inr ⟨strike.2, hsame⟩
    · rw [set_set] at hset
      exact .inr ⟨bytes, hset⟩

theorem decides_of_singleCopy (control : ControlState) (total : Tally) (index : UInt64)
    (world : UnitWorld) (hwritten : control.copies = written setup index)
    (hsingle : SingleCopy world) : Decides setup (runnerAt setup control total index) world := by
  obtain ⟨copy, hcopy⟩ := hsingle
  have htwo : 2 ≤ ((struck control world.strikes).copies.map decodeControl).countP
      (holds (wordsAt setup index)) := by
    rcases struck_copies control world.strikes copy hcopy with hsame | ⟨bytes, hset⟩
    · have h := struck_holds control (wordsAt setup index) kCopies (encodeControl (wordsAt setup index))
      rw [hsame, hwritten]
      exact h
    · rw [hset, hwritten]
      exact struck_holds control (wordsAt setup index) copy bytes
  exact ⟨_, read_of_two _ _ htwo⟩

theorem sliceDecided_of_singleCopy (control : ControlState) (total : Tally) (index : UInt64)
    (did : List Work) (returned : List (Except RunnerError SliceReport))
    (slice : Slice) (hwritten : control.copies = written setup index)
    (hsingle : ∀ k, SingleCopy (slice.world k)) :
    SliceDecided setup ⟨runnerAt setup control total index, did, returned⟩ slice := by
  have hall : ∀ n, ∀ k < n, Decides setup (runUnits slice.world k 0
      ⟨runnerAt setup control total index, {}, [], true⟩).runner (slice.world (0 + k)) := by
    intro n
    induction n with
    | zero => exact fun k hk => absurd hk (Nat.not_lt_zero k)
    | succ n ih =>
      intro k hk
      obtain ⟨control', hwritten', hunits⟩ := runUnits_eq setup slice.world k 0 control total index
        {} [] hwritten fun j hj => ih j (by omega)
      rw [hunits, Nat.zero_add]
      exact decides_of_singleCopy setup control' total _ _ hwritten' (hsingle k)
  intro k hk
  have h := hall slice.units.toNat k hk
  rw [Nat.zero_add] at h
  exact h

/-- Votes decide in every run in which memory spoils at most one copy at a time. -/
theorem decided_of_singleCopy (slices : List Slice)
    (hsingle : ∀ slice ∈ slices, ∀ k, SingleCopy (slice.world k)) : Decided setup slices := by
  have hall : ∀ (slices : List Slice) (control : ControlState) (total : Tally) (index : UInt64)
      (did : List Work) (returned : List (Except RunnerError SliceReport)),
      control.copies = written setup index →
      (∀ slice ∈ slices, ∀ k, SingleCopy (slice.world k)) →
      Along SlicesRun.next (SliceDecided setup)
        ⟨runnerAt setup control total index, did, returned⟩ slices := by
    intro slices
    induction slices with
    | nil => exact fun _ _ _ _ _ _ _ => trivial
    | cons slice slices ih =>
      intro control total index did returned hwritten hsingle
      have hslice := sliceDecided_of_singleCopy setup control total index did returned slice
        hwritten (hsingle slice (by simp))
      obtain ⟨control', hwritten', hnext⟩ :=
        next_eq setup control total index did returned slice hwritten hslice
      refine ⟨hslice, ?_⟩
      rw [hnext]
      exact ih _ _ _ _ _ hwritten' fun other hmem => hsingle other (by simp [hmem])
  exact hall slices (.create (wordsAt setup setup.firstIndex)) {} setup.firstIndex [] [] rfl hsingle

/-- What the reports and the total of a run say of its units, modulo 2^64. -/
structure AccountOf (setup : RunnerSetup) (units : List UnitCase) (after : SlicesRun)
    (reports : List SliceReport) : Prop where
  returned : after.returned = reports.map Except.ok
  consecutive : units.map (·.index) =
    (List.range units.length).map fun k => setup.firstIndex + UInt64.ofNat k
  did : after.did = units.flatMap (UnitCase.steps setup)
  total : after.runner.total = tallySum (reports.map SliceReport.tally)
  integrityChecked : after.runner.total.integrityChecked =
    UInt64.ofNat (units.countP (UnitCase.bracketed setup))
  unitsComputed : after.runner.total.unitsComputed =
    UInt64.ofNat (units.length - units.countP (UnitCase.spoilt setup))
  oracleChecked : after.runner.total.oracleChecked =
    UInt64.ofNat (units.countP (UnitCase.asked setup))
  failures : after.runner.total.oracleFailed + after.runner.total.oracleNotPerformed =
    UInt64.ofNat (units.flatMap (UnitCase.checkRecords setup)).length
  failures_asked : (units.flatMap (UnitCase.checkRecords setup)).length ≤
    units.countP (UnitCase.asked setup)
  failures_bounded : units.length < 2 ^ 64 →
    after.runner.total.oracleFailed.toNat + after.runner.total.oracleNotPerformed.toNat ≤
      after.runner.total.oracleChecked.toNat
  integrityFailed : after.runner.total.integrityFailed =
    UInt64.ofNat ((reports.flatMap SliceReport.records).countP isInput)
  ordered : reports.flatMap SliceReport.records = units.flatMap fun u =>
    u.openRecords setup ++ u.checkRecords setup ++ u.closeRecords setup
  named : ∀ u ∈ units, ∀ r ∈ u.openRecords setup ++ u.checkRecords setup ++ u.closeRecords setup,
    (provenanceOf r).iteration = some u.index

theorem length_casesFrom (index : UInt64) (worlds : List UnitWorld) :
    (casesFrom index worlds).length = worlds.length := by
  induction worlds generalizing index with
  | nil => rfl
  | cons world worlds ih => simp [casesFrom, ih]

theorem length_casesOf (index : UInt64) (slices : List Slice) :
    (casesOf index slices).length = (slices.map fun slice => slice.units.toNat).sum := by
  rw [casesOf, length_casesFrom, length_flatMap]
  congr 1
  apply map_congr_left
  intro slice _
  simp [Slice.worlds]

variable (units : List UnitCase)

theorem countP_not_spoilt :
    units.countP (fun u => !u.spoilt setup) =
      units.length - units.countP (spoilt setup) := by
  have h := length_eq_countP_add_countP (spoilt setup) (l := units)
  have hneg : units.countP (fun u => !u.spoilt setup) =
      units.countP (fun u => decide ¬(u.spoilt setup = true)) := by
    apply countP_congr
    intro u _
    simp
  omega

theorem sum_oracleFailed :
    (tallySum (units.map (tally setup))).oracleFailed =
      UInt64.ofNat ((units.flatMap (checkRecords setup)).countP isWrongResult) := by
  rw [countP_flatMap]
  exact tallySum_get .oracleFailed _ _ (tally_oracleFailed setup) units

theorem sum_oracleNotPerformed :
    (tallySum (units.map (tally setup))).oracleNotPerformed =
      UInt64.ofNat ((units.flatMap (checkRecords setup)).countP
        fun r => !isWrongResult r) := by
  rw [countP_flatMap]
  exact tallySum_get .oracleNotPerformed _ _ (tally_oracleNotPerformed setup) units

theorem sum_oracleChecked :
    (tallySum (units.map (tally setup))).oracleChecked =
      UInt64.ofNat (units.countP (asked setup)) := by
  rw [← sum_ite]
  exact tallySum_get .oracleChecked _ _ (tally_oracleChecked setup) units

theorem countP_wrong_add {records : List ErrorRecord} :
    records.countP isWrongResult + records.countP (fun r => !isWrongResult r) =
      records.length := by
  rw [length_eq_countP_add_countP isWrongResult]
  congr 1
  apply countP_congr
  intro r _
  simp

theorem length_checkRecords_le :
    (units.flatMap (checkRecords setup)).length ≤
      units.countP (asked setup) := by
  induction units with
  | nil => simp
  | cons u units ih =>
    have hunit := checkRecords_length setup u
    rw [flatMap_cons, length_append, countP_cons]
    omega

/-- The account of a run whose votes decide is complete, and its counters agree with its
records. -/
theorem slice_account_is_complete (setup : RunnerSetup) (slices : List Slice)
    (hdecided : Decided setup slices) :
    (casesOf setup.firstIndex slices).length =
        (slices.map fun slice => slice.units.toNat).sum ∧
      ∃ reports, AccountOf setup (casesOf setup.firstIndex slices) (runSlices setup slices)
        reports := by
  refine ⟨length_casesOf setup.firstIndex slices, ?_⟩
  obtain ⟨control, index, reports, hrun, htally, hrecords⟩ := slices_eq setup slices
    (.create (wordsAt setup setup.firstIndex)) {} setup.firstIndex [] [] rfl hdecided
  have hafter : runSlices setup slices = ⟨runnerAt setup control
      (tallySum (reports.map SliceReport.tally)) index,
      (casesOf setup.firstIndex slices).flatMap (steps setup),
      reports.map Except.ok⟩ := by
    rw [Tally.empty_add, nil_append, nil_append] at hrun
    exact hrun
  have htotal : (runSlices setup slices).runner.total =
      tallySum ((casesOf setup.firstIndex slices).map (tally setup)) := by
    rw [hafter, ← htally]
    rfl
  have hasked := length_checkRecords_le setup (casesOf setup.firstIndex slices)
  have hsplit : ((casesOf setup.firstIndex slices).flatMap
        (checkRecords setup)).countP isWrongResult +
      ((casesOf setup.firstIndex slices).flatMap
        (checkRecords setup)).countP (fun r => !isWrongResult r) =
      ((casesOf setup.firstIndex slices).flatMap (checkRecords setup)).length :=
    countP_wrong_add
  refine ⟨reports, {
    returned := by rw [hafter]
    consecutive := by
      rw [length_casesOf, ← length_casesOf setup.firstIndex, casesOf, length_casesFrom]
      exact casesFrom_indices setup.firstIndex _
    did := by rw [hafter]
    total := by
      rw [hafter]
      rfl
    integrityChecked := ?_
    unitsComputed := ?_
    oracleChecked := by rw [htotal, sum_oracleChecked]
    failures := ?_
    failures_asked := hasked
    failures_bounded := ?_
    integrityFailed := ?_
    ordered := hrecords
    named := fun u _ => records_iteration setup u }⟩
  · rw [htotal, ← sum_ite]
    exact tallySum_get .integrityChecked _ _ (tally_integrityChecked setup) _
  · rw [htotal, ← countP_not_spoilt, ← sum_ite]
    exact tallySum_get .unitsComputed _ _ (tally_unitsComputed setup) _
  · rw [htotal, sum_oracleFailed, sum_oracleNotPerformed, ← UInt64.ofNat_add, hsplit]
  · intro hshort
    have hle := countP_le_length (p := asked setup) (l := casesOf setup.firstIndex slices)
    rw [htotal, sum_oracleFailed, sum_oracleNotPerformed, sum_oracleChecked,
      UInt64.toNat_ofNat_of_lt' (by simp only [UInt64.size]; omega),
      UInt64.toNat_ofNat_of_lt' (by simp only [UInt64.size]; omega),
      UInt64.toNat_ofNat_of_lt' (by simp only [UInt64.size]; omega)]
    omega
  · rw [htotal, hrecords, countP_flatMap]
    exact tallySum_get .integrityFailed _ _ (tally_integrityFailed setup) _

def sumSetup : RunnerSetup where
  descriptor := { name := "sum" }
  base := { workload := some (bytesOf "sum"), seed := some 7, isa := some 0 }
  duty := ⟨2, 1⟩
  lineBytes := 64
  firstIndex := 3
  layout := ⟨4, 64, 64, 256⟩
  startAddress := 4096
  slack := 0
  memoryLock := {}

def flippedBit : Difference := ⟨0, 0, 0, 1, 0, [1], [0]⟩

/-- The second unit's input goes wrong while it is computed, and the oracle throws. -/
def spoiltSlice : Slice where
  units := 2
  world k :=
    if k = 0 then {}
    else {
      strikes := [(1, encodeControl (wordsAt sumSetup 9))]
      verdict := .error "the oracle threw: out of memory"
      closed := some flippedBit }

theorem account_of_two_slices :
    ∃ reports, AccountOf sumSetup (casesOf 3 [spoiltSlice, ⟨1, fun _ => {}⟩])
      (runSlices sumSetup [spoiltSlice, ⟨1, fun _ => {}⟩]) reports := by
  have hdecided : Decided sumSetup [spoiltSlice, ⟨1, fun _ => {}⟩] := by
    apply decided_of_singleCopy
    intro slice hslice k
    refine ⟨1, ?_⟩
    intro strike hstrike
    simp only [mem_cons, not_mem_nil, or_false] at hslice
    rcases hslice with rfl | rfl
    · by_cases hk : k = 0
      · simp [spoiltSlice, hk] at hstrike
      · simp only [spoiltSlice, hk, if_false, mem_cons, not_mem_nil, or_false] at hstrike
        rw [hstrike]
    · cases hstrike
  exact (slice_account_is_complete sumSetup _ hdecided).2

end LoadForge.Verification.Integrity
