import LoadForge.Framework.Run
import LoadForge.Verification.SliceRunner
import LoadForge.Verification.Vote

namespace LoadForge.Verification

open List Tally

theorem Tally.add_assoc (a b c : Tally) : (a.add b).add c = a.add (b.add c) := by
  simp only [add, UInt64.add_assoc]

theorem Tally.add_empty (a : Tally) : a.add {} = a := by
  simp [add]

theorem Tally.empty_add (a : Tally) : add {} a = a := by
  simp [add]

theorem Tally.get_add (a b : Tally) (counter : Counter) :
    (a.add b).get counter = a.get counter + b.get counter := by
  cases counter <;> rfl

def tallySum (tallies : List Tally) : Tally := tallies.foldr Tally.add {}

theorem tallySum_append (a b : List Tally) : tallySum (a ++ b) = (tallySum a).add (tallySum b) := by
  induction a with
  | nil => exact (empty_add _).symm
  | cons tally a ih =>
    show tally.add (tallySum (a ++ b)) = (tally.add (tallySum a)).add (tallySum b)
    rw [ih, add_assoc]

theorem tallySum_get {α : Type} (counter : Counter) (tally : α → Tally) (count : α → Nat)
    (h : ∀ a, (tally a).get counter = UInt64.ofNat (count a)) (as : List α) :
    (tallySum (as.map tally)).get counter = UInt64.ofNat (as.map count).sum := by
  induction as with
  | nil => cases counter <;> rfl
  | cons a as ih =>
    show ((tally a).add (tallySum (as.map tally))).get counter = _
    simp [get_add, ih, h]

namespace Integrity

open Framework

/-- The control words of a run before the unit of an index. -/
def wordsAt (setup : RunnerSetup) (index : UInt64) : ControlWords where
  seed := setup.base.seed.getD 0
  seedPresent := if setup.base.seed.isSome then 1 else 0
  index := index
  oraclePeriod := setup.duty.oraclePeriod.toUInt64
  integrityPeriod := setup.duty.integrityPeriod.toUInt64
  lineBytes := setup.lineBytes.toUInt64

def runnerAt (setup : RunnerSetup) (control : ControlState) (total : Tally) (index : UInt64) :
    IntegrityRunner :=
  { makeSliceRunner setup with control := control, total := total, nextIndex := index }

/-- One unit of a run: its index, and what it meets. -/
structure UnitCase where
  index : UInt64
  world : UnitWorld

def casesFrom (index : UInt64) : List UnitWorld → List UnitCase
  | [] => []
  | world :: worlds => ⟨index, world⟩ :: casesFrom (index + 1) worlds

namespace UnitCase

variable (setup : RunnerSetup) (u : UnitCase)

def bracketed : Bool :=
  inPeriod setup.duty.integrityPeriod u.index

def sampled : Bool :=
  inPeriod setup.duty.oraclePeriod u.index

def spoilt : Bool :=
  u.bracketed setup && u.world.opened.isSome

/-- The unit is computed and the oracle is asked about it. -/
def asked : Bool := !u.spoilt setup && u.sampled setup

def closing : Option Difference :=
  if u.bracketed setup then u.world.closed else none

/-- What the oracle's check of the unit adds to the tally, and its record. -/
def checking : Tally × Option ErrorRecord :=
  check (makeSliceRunner setup) (wordsAt setup u.index) {} u.world.verdict

def openRecords : List ErrorRecord :=
  if u.bracketed setup then
    (u.world.opened.map fun difference => inputRecord (makeSliceRunner setup)
      (wordsAt setup u.index) difference kCorruptBeforeConsumption).toList
  else []

def checkRecords : List ErrorRecord :=
  if u.asked setup then
    ((u.checking setup).2.map
      (withIntegrity (integrityOf (u.bracketed setup) (u.closing setup)))).toList
  else []

def closeRecords : List ErrorRecord :=
  if u.spoilt setup then []
  else ((u.closing setup).map fun difference => inputRecord (makeSliceRunner setup)
    (wordsAt setup u.index) difference kCorruptDuringConsumption).toList

/-- The records of a unit in the order of its steps. -/
def records : List ErrorRecord :=
  u.openRecords setup ++ u.checkRecords setup ++ u.closeRecords setup

/-- What is done to a unit, in the order of its steps. -/
def steps : List Work :=
  [.generated u.index] ++ (if u.bracketed setup then [.generated u.index] else []) ++
    if u.spoilt setup then []
    else [.computed u.index] ++ (if u.sampled setup then [.checked u.index] else []) ++
      if u.bracketed setup then [.generated u.index] else []

/-- What a unit adds to the tally. -/
def tally : Tally :=
  Tally.add
    { unitsComputed := if u.spoilt setup then 0 else 1
      integrityChecked := if u.bracketed setup then 1 else 0
      integrityFailed := if u.spoilt setup || (u.closing setup).isSome then 1 else 0 }
    (if u.asked setup then (u.checking setup).1 else {})

end UnitCase

variable (setup : RunnerSetup)

/-- The runner after a unit, with the report it adds to. -/
def unitRun (control : ControlState) (total : Tally) (report : SliceReport) (u : UnitCase) :
    UnitRun where
  runner := runnerAt setup control total (u.index + 1)
  report := { report with
    tally := report.tally.add (u.tally setup)
    records := report.records ++ u.records setup }
  did := u.steps setup
  goesOn := true

theorem dutyOfWords_wordsAt (index : UInt64) : dutyOfWords (wordsAt setup index) = setup.duty := by
  simp [dutyOfWords, wordsAt]

/-- The oracle's check counts on top of what was counted, and its record does not depend on it. -/
theorem check_eq (r : IntegrityRunner) (words : ControlWords) (tally : Tally)
    (verdict : Except String Verdict) :
    check r words tally verdict =
      (tally.add (check r words {} verdict).1, (check r words {} verdict).2) := by
  cases verdict with
  | error thrown => simp [check, noted, add]
  | ok verdict =>
    simp only [check]
    split_ifs with hkeeps
    · simp [noted, add]
    · cases verdict with
      | boundedMismatch check residual tolerance conditionNumber element blocks =>
        simp [noted, add]
      | _ => simp [noted, add]

section

attribute [local simp] UnitCase.tally UnitCase.records UnitCase.steps UnitCase.openRecords
  UnitCase.checkRecords UnitCase.closeRecords UnitCase.asked UnitCase.spoilt UnitCase.closing
  integrityOf noted add

theorem runVoted_eq (setup : RunnerSetup) (control : ControlState) (total : Tally)
    (index : UInt64) (report : SliceReport) (world : UnitWorld) :
    runVoted (runnerAt setup control total index) report (wordsAt setup index) world =
      unitRun setup (control.write (wordsAt setup (index + 1))) total report ⟨index, world⟩ := by
  have hbracketed : inPeriod (dutyOfWords (wordsAt setup index)).integrityPeriod index =
      UnitCase.bracketed setup ⟨index, world⟩ := by
    rw [dutyOfWords_wordsAt]
    rfl
  have hsampled : inPeriod (dutyOfWords (wordsAt setup index)).oraclePeriod index =
      UnitCase.sampled setup ⟨index, world⟩ := by
    rw [dutyOfWords_wordsAt]
    rfl
  have hcheck (tally : Tally) : check (runnerAt setup control total index) (wordsAt setup index)
      tally world.verdict = (tally.add (UnitCase.checking setup ⟨index, world⟩).1,
        (UnitCase.checking setup ⟨index, world⟩).2) := check_eq _ _ tally _
  have hinput (difference : Difference) (integrity : UInt8) :
      inputRecord (runnerAt setup control total index) (wordsAt setup index) difference integrity =
        inputRecord (makeSliceRunner setup) (wordsAt setup index) difference integrity := rfl
  have hadvance : advance (runnerAt setup control total index) (wordsAt setup index) =
      runnerAt setup (control.write (wordsAt setup (index + 1))) total (index + 1) := rfl
  have hindex : (wordsAt setup index).index = index := rfl
  simp only [runVoted, unitRun, hbracketed, hsampled, hcheck, hadvance, hindex]
  cases hb : UnitCase.bracketed setup ⟨index, world⟩ with
  | true =>
    cases ho : world.opened with
    | some difference =>
      simp [runSpoilt, hinput, hadvance, hindex, hb, ho]
    | none =>
      cases hs : UnitCase.sampled setup ⟨index, world⟩ with
      | true =>
        cases hc : world.closed with
        | some difference =>
          simp [hinput, hb, ho, hs, hc]
          exact ⟨UInt64.add_assoc _ _ _, UInt64.add_assoc _ _ _, by ac_rfl⟩
        | none =>
          simp [hb, ho, hs, hc]
          exact ⟨UInt64.add_assoc _ _ _, UInt64.add_assoc _ _ _⟩
      | false =>
        cases hc : world.closed with
        | some difference =>
          simp [hinput, hb, ho, hs, hc]
        | none =>
          simp [hb, ho, hs, hc]
  | false =>
    cases hs : UnitCase.sampled setup ⟨index, world⟩ with
    | true =>
      simp [hb, hs]
      exact UInt64.add_assoc _ _ _
    | false =>
      simp [hb, hs]

end

/-- The copies of the control state before the unit of an index, as they were written. -/
def written (setup : RunnerSetup) (index : UInt64) : List Stored :=
  List.replicate kCopies (encodeControl (wordsAt setup index))

/-- The vote before a unit gives the words of the run. -/
def Decides (setup : RunnerSetup) (r : IntegrityRunner) (world : UnitWorld) : Prop :=
  ∃ control, (struck r.control world.strikes).read = .ok (wordsAt setup r.nextIndex, control)

theorem runUnit_eq (control : ControlState) (total : Tally) (index : UInt64) (report : SliceReport)
    (world : UnitWorld)
    (hdecides : Decides setup (runnerAt setup control total index) world) :
    ∃ control', control'.copies = written setup (index + 1) ∧
      runUnit (runnerAt setup control total index) report world =
        unitRun setup control' total report ⟨index, world⟩ := by
  obtain ⟨decided, hread⟩ := hdecides
  have hcontrol : (struck (runnerAt setup control total index).control world.strikes).read =
      .ok (wordsAt setup index, decided) := hread
  refine ⟨decided.write (wordsAt setup (index + 1)), rfl, ?_⟩
  simp only [runUnit, hcontrol]
  exact runVoted_eq setup decided total index report world

theorem runUnits_eq (world : Nat → UnitWorld) (left done : Nat) (control : ControlState)
    (total : Tally) (index : UInt64) (report : SliceReport)
    (did : List Work) (hwritten : control.copies = written setup index)
    (hdecides : ∀ k < left, Decides setup
      (runUnits world k done ⟨runnerAt setup control total index, report, did, true⟩).runner
      (world (done + k))) :
    ∃ control', control'.copies = written setup (index + UInt64.ofNat left) ∧
      runUnits world left done ⟨runnerAt setup control total index, report, did, true⟩ =
      { runner := runnerAt setup control' total (index + UInt64.ofNat left)
        report := { report with
          tally := report.tally.add (tallySum
            ((casesFrom index ((range' done left).map world)).map (UnitCase.tally setup)))
          records := report.records ++
            (casesFrom index ((range' done left).map world)).flatMap (UnitCase.records setup) }
        did := did ++
          (casesFrom index ((range' done left).map world)).flatMap (UnitCase.steps setup)
        goesOn := true } := by
  induction left generalizing done control index report did with
  | zero =>
    refine ⟨control, by simpa using hwritten, ?_⟩
    simp [runUnits, casesFrom, tallySum, add_empty]
  | succ left ih =>
    have hfirst := hdecides 0 (Nat.succ_pos left)
    obtain ⟨control', hwritten', hunit⟩ := runUnit_eq setup control total index report (world done) hfirst
    have hnext (k : Nat) : runUnits world (k + 1) done
        ⟨runnerAt setup control total index, report, did, true⟩ =
        runUnits world k (done + 1) ⟨runnerAt setup control' total (index + 1),
          (unitRun setup control' total report ⟨index, world done⟩).report,
          did ++ UnitCase.steps setup ⟨index, world done⟩, true⟩ := by
      simp [runUnits, hunit, unitRun]
    have hindex : index + 1 + UInt64.ofNat left = index + UInt64.ofNat (left + 1) := by
      rw [UInt64.ofNat_add, UInt64.add_assoc, UInt64.add_comm 1]
      rfl
    obtain ⟨control'', hwritten'', hrest⟩ := ih (done + 1) control' (index + 1) _
      (did ++ UnitCase.steps setup ⟨index, world done⟩) hwritten' (by
        intro k hk
        have h := hdecides (k + 1) (Nat.succ_lt_succ hk)
        rw [hnext, ← Nat.add_assoc, Nat.add_right_comm] at h
        exact h)
    rw [hindex] at hwritten''
    refine ⟨control'', hwritten'', ?_⟩
    rw [hnext, hrest, range'_succ]
    simp only [unitRun, map_cons, casesFrom, flatMap_cons, append_assoc, hindex,
      UnitRun.mk.injEq, SliceReport.mk.injEq, true_and, and_true]
    exact add_assoc _ _ _

/-- A condition on every unit of a slice, up to one after which it does not go on. -/
def EachUnit (P : IntegrityRunner → UnitWorld → Prop) (world : Nat → UnitWorld) :
    Nat → Nat → UnitRun → Prop
  | 0, _, _ => True
  | left + 1, done, run =>
    P run.runner (world done) ∧
      ((runUnit run.runner run.report (world done)).goesOn = true →
        EachUnit P world left (done + 1)
          { runUnit run.runner run.report (world done) with
            did := run.did ++ (runUnit run.runner run.report (world done)).did })

instance {P : IntegrityRunner → UnitWorld → Prop} [∀ r world, Decidable (P r world)]
    (world : Nat → UnitWorld) (left done : Nat) (run : UnitRun) :
    Decidable (EachUnit P world left done run) := by
  induction left generalizing done run with
  | zero => exact isTrue trivial
  | succ left ih => exact @instDecidableAnd _ _ _ (@instDecidableForall _ _ _ (ih _ _))

/-- A call of run_slice: how many units, and what each of them meets. -/
structure Slice where
  units : UInt64
  world : Nat → UnitWorld

def Slice.worlds (slice : Slice) : List UnitWorld :=
  (List.range slice.units.toNat).map slice.world

/-- A runner after some slices, what it did to units and what the calls returned. -/
structure SlicesRun where
  runner : IntegrityRunner
  did : List Work := []
  returned : List (Except RunnerError SliceReport) := []

def SlicesRun.next (run : SlicesRun) (slice : Slice) : SlicesRun :=
  let done := runSlice run.runner slice.units slice.world
  ⟨done.runner, run.did ++ done.did, run.returned ++ [done.report]⟩

/-- The vote before each unit of a slice gives the words of the run. -/
def SliceDecided (setup : RunnerSetup) (run : SlicesRun) (slice : Slice) : Prop :=
  ∀ k < slice.units.toNat,
    Decides setup (runUnits slice.world k 0 ⟨run.runner, {}, [], true⟩).runner (slice.world k)

def sliceReport (setup : RunnerSetup) (index : UInt64) (slice : Slice) : SliceReport where
  tally := tallySum ((casesFrom index slice.worlds).map (UnitCase.tally setup))
  records := (casesFrom index slice.worlds).flatMap (UnitCase.records setup)
  nextIndex := index + slice.units

theorem next_eq (control : ControlState) (total : Tally) (index : UInt64) (did : List Work)
    (returned : List (Except RunnerError SliceReport))
    (slice : Slice) (hwritten : control.copies = written setup index)
    (hdecided : SliceDecided setup ⟨runnerAt setup control total index, did, returned⟩ slice) :
    ∃ control', control'.copies = written setup (index + slice.units) ∧
      SlicesRun.next ⟨runnerAt setup control total index, did, returned⟩ slice =
      ⟨runnerAt setup control' (total.add (sliceReport setup index slice).tally)
          (index + slice.units),
        did ++ (casesFrom index slice.worlds).flatMap (UnitCase.steps setup),
        returned ++ [.ok (sliceReport setup index slice)]⟩ := by
  obtain ⟨control', hwritten', hunits⟩ := runUnits_eq setup slice.world slice.units.toNat 0
    control total index {} [] hwritten (by
      intro k hk
      rw [Nat.zero_add]
      exact hdecided k hk)
  rw [UInt64.ofNat_toNat] at hwritten'
  rw [← range_eq_range', UInt64.ofNat_toNat] at hunits
  refine ⟨control', hwritten', ?_⟩
  have hopen : (runnerAt setup control total index).finished = false := rfl
  have hgoing : (runnerAt setup control total index).halted = none := rfl
  simp only [SlicesRun.next, runSlice, hopen, hgoing, hunits, Bool.false_eq_true, if_false,
    empty_add, nil_append]
  rfl

theorem casesFrom_append (index : UInt64) (a b : List UnitWorld) :
    casesFrom index (a ++ b) =
      casesFrom index a ++ casesFrom (index + UInt64.ofNat a.length) b := by
  induction a generalizing index with
  | nil => simp [casesFrom]
  | cons world a ih =>
    have hindex : index + 1 + UInt64.ofNat a.length = index + UInt64.ofNat (a.length + 1) := by
      rw [UInt64.ofNat_add, UInt64.add_assoc, UInt64.add_comm 1]
      rfl
    simp [casesFrom, ih, hindex]

theorem casesFrom_indices (index : UInt64) (worlds : List UnitWorld) :
    (casesFrom index worlds).map (·.index) =
      (range worlds.length).map fun k => index + UInt64.ofNat k := by
  induction worlds generalizing index with
  | nil => rfl
  | cons world worlds ih =>
    rw [casesFrom, map_cons, ih, length_cons, range_succ_eq_map, map_cons, map_map]
    have hzero : index + UInt64.ofNat 0 = index := UInt64.add_zero index
    rw [hzero]
    congr 1
    apply map_congr_left
    intro k _
    show index + 1 + UInt64.ofNat k = index + UInt64.ofNat (k + 1)
    rw [UInt64.ofNat_add, UInt64.add_assoc, UInt64.add_comm 1]
    rfl

def casesOf (index : UInt64) (slices : List Slice) : List UnitCase :=
  casesFrom index (slices.flatMap Slice.worlds)

theorem casesOf_cons (index : UInt64) (slice : Slice) (slices : List Slice) :
    casesOf index (slice :: slices) =
      casesFrom index slice.worlds ++ casesOf (index + slice.units) slices := by
  have hlength : UInt64.ofNat slice.worlds.length = slice.units := by
    simp [Slice.worlds]
  rw [casesOf, flatMap_cons, casesFrom_append, hlength]
  rfl

theorem slices_eq (slices : List Slice) (control : ControlState) (total : Tally) (index : UInt64)
    (did : List Work)
    (returned : List (Except RunnerError SliceReport))
    (hwritten : control.copies = written setup index)
    (hdecided : Along SlicesRun.next (SliceDecided setup)
      ⟨runnerAt setup control total index, did, returned⟩ slices) :
    ∃ (control' : ControlState) (index' : UInt64) (reports : List SliceReport),
      run SlicesRun.next ⟨runnerAt setup control total index, did, returned⟩ slices =
        ⟨runnerAt setup control' (total.add (tallySum (reports.map SliceReport.tally))) index',
          did ++ (casesOf index slices).flatMap (UnitCase.steps setup),
          returned ++ reports.map Except.ok⟩ ∧
      tallySum (reports.map SliceReport.tally) =
        tallySum ((casesOf index slices).map (UnitCase.tally setup)) ∧
      reports.flatMap SliceReport.records =
        (casesOf index slices).flatMap (UnitCase.records setup) := by
  induction slices generalizing control total index did returned with
  | nil =>
    refine ⟨control, index, [], ?_, rfl, rfl⟩
    simp [casesOf, casesFrom, tallySum, add_empty]
  | cons slice slices ih =>
    obtain ⟨hslice, hrest⟩ := hdecided
    obtain ⟨control', hwritten', hnext⟩ :=
      next_eq setup control total index did returned slice hwritten hslice
    rw [hnext] at hrest
    obtain ⟨control'', index', reports, hrun, htally, hrecords⟩ := ih _ _ _ _ _ hwritten' hrest
    refine ⟨control'', index', sliceReport setup index slice :: reports, ?_, ?_, ?_⟩
    · rw [run_cons, hnext, hrun, casesOf_cons, flatMap_append]
      simp only [append_assoc, map_cons, singleton_append, SlicesRun.mk.injEq, and_true]
      rw [add_assoc]
      rfl
    · rw [casesOf_cons, map_cons, map_append, tallySum_append, ← htally]
      rfl
    · rw [casesOf_cons, flatMap_cons, flatMap_append, hrecords]
      rfl

end Integrity

end LoadForge.Verification
