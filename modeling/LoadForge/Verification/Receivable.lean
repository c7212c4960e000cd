import LoadForge.Verification.Canonical
import LoadForge.Verification.CompareStored
import LoadForge.Verification.Layout
import LoadForge.Verification.SliceCounts
import LoadForge.Worker.RecordReader

namespace LoadForge.Verification

open Framework Workloads List Option

def F64.le (a b : UInt64) : Bool := !isNan a && !isNan b && decide (key a ≤ key b)

theorem putOptional_length {α : Type} (put : α → List UInt8) (value : Option α) (size : Nat)
    (h : ∀ a ∈ value, (put a).length ≤ size) : (putOptional put value).length ≤ size + 1 := by
  cases value with
  | none => simp [putOptional, putPresence, putU8]
  | some a =>
    have hput := h a rfl
    simp [putOptional, putPresence, putU8, leBytes_length]
    omega

theorem putRaw_length (bytes : List UInt8) : (putRaw bytes).length = bytes.length + 8 := by
  rw [putRaw, length_append, leBytes_length, Nat.add_comm]

theorem putProvenance_length (p : Provenance) (hp : p.WithinLimits) :
    (putProvenance p).length ≤ 1121 := by
  have hu8 : ∀ o : Option UInt8, (putOptional putU8 o).length ≤ 2 := fun o =>
    putOptional_length putU8 o 1 fun a _ => Nat.le_of_eq (leBytes_length 1 _)
  have hu32 : ∀ o : Option UInt32, (putOptional putU32 o).length ≤ 5 := fun o =>
    putOptional_length putU32 o 4 fun a _ => Nat.le_of_eq (leBytes_length 4 _)
  have hu64 : ∀ o : Option UInt64, (putOptional putU64 o).length ≤ 9 := fun o =>
    putOptional_length putU64 o 8 fun a _ => Nat.le_of_eq (leBytes_length 8 _)
  have hworkload : (putOptional putRaw p.workload).length ≤ 1033 := by
    apply putOptional_length
    intro w hw
    have hlimit := hp w hw
    rw [putRaw_length]
    simp only [kMaxTextBytes] at hlimit
    omega
  have hduty : (putOptional putDuty p.duty).length ≤ 9 := by
    apply putOptional_length
    intro duty _
    simp [putDuty, putU32]
  simp only [putProvenance, length_append]
  exact Nat.add_le_add (hu32 _) (Nat.add_le_add (hu32 _) (Nat.add_le_add (hu32 _)
    (Nat.add_le_add (hu64 _) (Nat.add_le_add (hu64 _) (Nat.add_le_add (hu64 _)
    (Nat.add_le_add hworkload (Nat.add_le_add (hu32 _) (Nat.add_le_add (hu64 _)
    (Nat.add_le_add (hu8 _) (Nat.add_le_add (hu8 _) (Nat.add_le_add hduty
    (Nat.add_le_add (hu32 _) (Nat.add_le_add (hu32 _) (hu64 _))))))))))))))

theorem putKind_length (r : ErrorRecord) (hr : r.WithinLimits) : (putKind r).length ≤ 2072 := by
  obtain ⟨-, hkind⟩ := hr
  have hu64 : ∀ o : Option UInt64, (putOptional putU64 o).length ≤ 9 := fun o =>
    putOptional_length putU64 o 8 fun a _ => Nat.le_of_eq (leBytes_length 8 _)
  cases r with
  | exact e =>
    obtain ⟨hcheck, hdifference⟩ := hkind
    have hput : (putOptional putDifference e.difference).length ≤ 178 := by
      apply putOptional_length
      intro d hd
      obtain ⟨he, ha⟩ := hdifference d hd
      simp only [kMaxWindowBytes] at he ha
      simp [putDifference, putU8, putU64, leBytes_length, putRaw_length]
      omega
    simp only [kMaxTextBytes] at hcheck
    simp [putKind, putU8, putU32, leBytes_length, putRaw_length]
    omega
  | numerical e =>
    have hcheck : e.check.length ≤ 1024 := hkind
    have h1 := hu64 e.conditionNumber
    have h2 := hu64 e.element
    simp only [putKind, length_append, putRaw_length]
    simp only [putU64, leBytes_length] at *
    omega
  | notPerformed e =>
    obtain ⟨hwhat, hwhy⟩ := hkind
    simp only [kMaxTextBytes] at hwhat hwhy
    simp [putKind, putU64, leBytes_length, putRaw_length]
    omega

theorem encode_length (r : ErrorRecord) (hr : r.WithinLimits) :
    (encode r).length ≤ Ipc.kMaxPayloadBytes := by
  have hprovenance := putProvenance_length (provenanceOf r) hr.1
  have hkind := putKind_length r hr
  rw [encode_eq]
  simp [Ipc.kMaxPayloadBytes]
  omega

/-- The controller can receive a record: it is valid, it fits a frame, and it comes back. -/
structure Receivable (shortest : UInt64 → String) (r : ErrorRecord) : Prop where
  valid : r.isValid = true
  fits : (encode r).length ≤ Ipc.kMaxPayloadBytes
  framed : Ipc.encode kErrorRecordFrameType (encode r) =
    .ok (Ipc.frame ⟨kErrorRecordFrameType, encode r⟩)
  decoded : decode shortest (encode r) = .ok r

theorem receivable_of_valid (shortest : UInt64 → String) (r : ErrorRecord)
    (hvalid : r.isValid = true) : Receivable shortest r := by
  have hlimits := isValid_withinLimits r hvalid
  have hfits := encode_length r hlimits
  refine ⟨hvalid, hfits, ?_, ?_⟩
  · rw [Ipc.encode, if_neg (by omega)]
  · rw [decode_encode shortest r hlimits, (brokenRule_none shortest r).mpr hvalid]

namespace Integrity

/-- The rules of the oracle contract, one alternative each. -/
def keepsRules (contract : Contract) : Verdict → Bool
  | .agreement blocks => 1 ≤ blocks
  | .exactMismatch check difference blocks =>
    contract == .kExact && 1 ≤ blocks && !check.isEmpty && check.length ≤ kMaxTextBytes &&
      difference.all Difference.isValid
  | .boundedMismatch check residual tolerance _ _ blocks =>
    contract == .kBounded && 1 ≤ blocks && !check.isEmpty && check.length ≤ kMaxTextBytes &&
      F64.isFinite tolerance && decide (0 < F64.key tolerance) && !F64.le residual tolerance
  | .notChecked what why _ =>
    !what.isEmpty && !why.isEmpty && what.length ≤ kMaxTextBytes && why.length ≤ kMaxTextBytes

theorem namesCheck_eq (check : List UInt8) :
    namesCheck check = (!check.isEmpty && decide (check.length ≤ kMaxTextBytes)) := by
  cases check with
  | nil => rfl
  | cons b check => simp [namesCheck]

/-- Of a finite tolerance, not at most it is above it or no number. -/
theorem not_le_eq_exceeds (residual tolerance : UInt64) (h : F64.isFinite tolerance = true) :
    (!F64.le residual tolerance) = exceedsTolerance residual tolerance := by
  have hnan : F64.isNan tolerance = false := by
    simp only [F64.isFinite, F64.isNan, decide_eq_true_eq, decide_eq_false_iff_not] at *
    omega
  simp only [F64.le, exceedsTolerance, F64.gt, hnan, Bool.not_false, Bool.and_true]
  cases F64.isNan residual with
  | true => rfl
  | false =>
    simp only [Bool.not_false, Bool.true_and, Bool.false_or, ← decide_not, Int.not_le]

theorem keepsContract_eq_keepsRules (contract : Contract) (verdict : Verdict) :
    keepsContract contract verdict = keepsRules contract verdict := by
  cases verdict with
  | agreement blocks => rfl
  | exactMismatch check difference blocks =>
    have hdifference : (difference.bind brokenDifferenceRule).isNone =
        difference.all Difference.isValid := by
      cases difference with
      | none => rfl
      | some d =>
        rw [Bool.eq_iff_iff]
        simpa using brokenDifferenceRule_none d
    simp only [keepsContract, keepsRules, namesCheck_eq, hdifference, Bool.and_assoc]
  | boundedMismatch check residual tolerance conditionNumber element blocks =>
    cases hfinite : F64.isFinite tolerance with
    | false => simp [keepsContract, keepsRules, hfinite]
    | true =>
      simp only [keepsContract, keepsRules, namesCheck_eq, hfinite,
        not_le_eq_exceeds residual tolerance hfinite, Bool.and_assoc]
  | notChecked what why blocks =>
    simp only [keepsContract, keepsRules, namesCheck_eq]
    cases what.isEmpty <;> cases why.isEmpty <;> simp

theorem bounded_length (text : String) : (bounded text).length ≤ kMaxTextBytes := by
  rw [bounded, length_take]
  exact Nat.min_le_left _ _

theorem notPerformed_valid (p : Provenance) (what why : List UInt8) (blocks : UInt64)
    (hp : p.isValid = true) (hwhat : what.length ≤ kMaxTextBytes)
    (hwhy : why.length ≤ kMaxTextBytes) : (notPerformed p what why blocks).isValid = true := by
  show (p.isValid && (decide (what.length ≤ kMaxTextBytes) &&
    decide (why.length ≤ kMaxTextBytes))) = true
  rw [hp, decide_eq_true hwhat, decide_eq_true hwhy]
  rfl

section

variable {r : IntegrityRunner} (hbase : r.base.isValid = true)
include hbase

theorem provenanceAt_valid (words : ControlWords) (offset : UInt64) (integrity : UInt8)
    (hintegrity : integrity ≤ 3) :
    (provenanceAt r words offset integrity).isValid = true := by
  simp only [Provenance.isValid, Bool.and_eq_true] at hbase ⊢
  obtain ⟨⟨hworkload, hisa⟩, -⟩ := hbase
  exact ⟨⟨hworkload, hisa⟩, decide_eq_true hintegrity⟩

omit hbase in
theorem withIntegrity_valid (integrity : UInt8) (hintegrity : integrity ≤ 3) (r : ErrorRecord)
    (hr : r.isValid = true) : (withIntegrity integrity r).isValid = true := by
  have hprovenance : ∀ p : Provenance, p.isValid = true →
      { p with inputIntegrity := some integrity }.isValid = true := by
    intro p hp
    simp only [Provenance.isValid, Bool.and_eq_true] at hp ⊢
    exact ⟨hp.1, decide_eq_true hintegrity⟩
  rw [ErrorRecord.isValid.eq_def, Bool.and_eq_true] at hr ⊢
  cases r <;> exact ⟨hprovenance _ hr.1, hr.2⟩

omit hbase in
theorem exact_valid (p : Provenance) (side : UInt8) (check : List UInt8)
    (difference : Option Difference) (lineBytes : UInt32) (hp : p.isValid = true)
    (hside : side ≤ 1) (hcheck : check ≠ []) (hlength : check.length ≤ kMaxTextBytes)
    (hline : acceptsLine lineBytes = true) (hdifference : ∀ d ∈ difference, d.isValid = true) :
    (ErrorRecord.exact ⟨p, side, check, difference, lineBytes⟩).isValid = true := by
  have hall : difference.all Difference.isValid = true := by
    cases difference with
    | none => rfl
    | some d => exact hdifference d rfl
  have hempty : check.isEmpty = false := isEmpty_eq_false_iff.mpr hcheck
  rw [acceptsLine, Bool.and_eq_true] at hline
  show (p.isValid && (decide (side ≤ 1) && !check.isEmpty &&
    decide (check.length ≤ kMaxTextBytes) && decide (kWordBytes ≤ lineBytes.toUInt64) &&
    hasSingleBit lineBytes.toNat && difference.all Difference.isValid)) = true
  rw [hp, decide_eq_true hside, hempty, decide_eq_true hlength, hline.1, hline.2, hall]
  rfl

theorem inputRecord_valid (words : ControlWords) (d : Difference) (integrity : UInt8)
    (hline : acceptsLine words.lineBytes.toUInt32 = true) (hd : d.isValid = true)
    (hintegrity : integrity ≤ 3) : (inputRecord r words d integrity).isValid = true := by
  apply exact_valid
  · exact provenanceAt_valid hbase words _ integrity hintegrity
  · decide
  · decide
  · decide
  · exact hline
  · intro d' hd'
    cases hd'
    exact hd

omit hbase in
theorem numerical_valid (p : Provenance) (check : List UInt8) (residual tolerance : UInt64)
    (conditionNumber element : Option UInt64) (hp : p.isValid = true)
    (hlength : check.length ≤ kMaxTextBytes) (hfinite : F64.isFinite tolerance = true)
    (hpositive : 0 < F64.key tolerance) (hexceeds : exceedsTolerance residual tolerance = true) :
    (ErrorRecord.numerical ⟨p, check, residual, tolerance, conditionNumber, element⟩).isValid =
      true := by
  show (p.isValid && (decide (check.length ≤ kMaxTextBytes) && F64.isFinite tolerance &&
    decide (0 < F64.key tolerance) && exceedsTolerance residual tolerance)) = true
  rw [hp, decide_eq_true hlength, hfinite, decide_eq_true hpositive, hexceeds]
  rfl

omit hbase in
theorem breaks_contract_length (verdict : Verdict) :
    (bytesOf ("the oracle's verdict (alternative " ++ toString verdict.alternative ++
      ") breaks the oracle contract")).length ≤ kMaxTextBytes := by
  have hall : ∀ alternative < 4, (bytesOf ("the oracle's verdict (alternative " ++
      toString alternative ++ ") breaks the oracle contract")).length ≤ kMaxTextBytes := by
    decide +kernel
  cases verdict with
  | agreement => exact hall 0 (by decide)
  | exactMismatch => exact hall 1 (by decide)
  | boundedMismatch => exact hall 2 (by decide)
  | notChecked => exact hall 3 (by decide)

theorem check_valid (words : ControlWords) (tally : Tally) (verdict : Except String Verdict)
    (hline : acceptsLine words.lineBytes.toUInt32 = true) :
    ∀ record ∈ (check r words tally verdict).2, record.isValid = true := by
  have hp := provenanceAt_valid hbase words (outputOffset r words) kNotChecked (by decide)
  cases verdict with
  | error thrown =>
    intro record hrecord
    cases hrecord
    exact notPerformed_valid _ _ _ _ hp (bounded_length _) (bounded_length _)
  | ok verdict =>
    simp only [check, keepsContract_eq_keepsRules]
    cases hkeeps : keepsRules r.contract verdict with
    | false =>
      intro record hrecord
      simp only [Bool.not_false, if_true] at hrecord
      cases hrecord
      exact notPerformed_valid _ _ _ _ hp (bounded_length _) (breaks_contract_length verdict)
    | true =>
      intro record hrecord
      simp only [Bool.not_true, Bool.false_eq_true, if_false] at hrecord
      cases verdict with
      | agreement blocks => cases hrecord
      | exactMismatch name difference blocks =>
        cases hrecord
        simp only [keepsRules, Bool.and_eq_true, decide_eq_true_eq, Bool.not_eq_true',
          isEmpty_eq_false_iff] at hkeeps
        obtain ⟨⟨⟨-, hname⟩, hlength⟩, hdifference⟩ := hkeeps
        apply exact_valid _ _ _ _ _ hp (by decide) hname hlength hline
        intro d hd
        rw [mem_def.mp hd] at hdifference
        exact hdifference
      | boundedMismatch name residual tolerance conditionNumber element blocks =>
        cases hrecord
        simp only [keepsRules, Bool.and_eq_true, decide_eq_true_eq] at hkeeps
        obtain ⟨⟨⟨⟨-, hlength⟩, hfinite⟩, hpositive⟩, hexceeds⟩ := hkeeps
        rw [not_le_eq_exceeds _ _ hfinite] at hexceeds
        exact numerical_valid _ _ _ _ _ _ hp hlength hfinite hpositive hexceeds
      | notChecked what why blocks =>
        cases hrecord
        simp only [keepsRules, Bool.and_eq_true, decide_eq_true_eq] at hkeeps
        exact notPerformed_valid _ _ _ _ hp hkeeps.1.2 hkeeps.2

/-- What memory holds when a unit's steps read it. -/
structure UnitMemory where
  strikes : List (Nat × Stored) := []
  opened : Compared
  verdict : Except String Verdict
  closed : Compared

def UnitMemory.world (memory : UnitMemory) : UnitWorld where
  strikes := memory.strikes
  opened := compareStored memory.opened
  verdict := memory.verdict
  closed := compareStored memory.closed

def AllValid (records : List ErrorRecord) : Prop := ∀ record ∈ records, record.isValid = true

theorem runVoted_valid (report : SliceReport) (words : ControlWords) (memory : UnitMemory)
    (hline : acceptsLine words.lineBytes.toUInt32 = true) (hreport : AllValid report.records) :
    AllValid (runVoted r report words memory.world).report.records ∧
      (runVoted r report words memory.world).runner.base = r.base := by
  have hfound : ∀ (bracketed : Bool) (compared : Compared) (d : Difference),
      (if bracketed = true then compareStored compared else none) = some d → d.isValid = true := by
    intro bracketed compared d h
    cases bracketed with
    | false => cases h
    | true => exact compareStored_valid compared d h
  have hintegrity : ∀ (bracketed : Bool) (closed : Option Difference),
      integrityOf bracketed closed ≤ 3 := by
    intro bracketed closed
    rw [integrityOf]
    split_ifs <;> decide
  simp only [runVoted]
  split
  case h_1 d hopened =>
    refine ⟨forall_mem_append.mpr ⟨hreport, forall_mem_singleton.mpr ?_⟩, rfl⟩
    exact inputRecord_valid hbase words d _ hline (hfound _ _ d hopened) (by decide)
  case h_2 hopened =>
    refine ⟨forall_mem_append.mpr ⟨forall_mem_append.mpr ⟨hreport, ?_⟩, ?_⟩, rfl⟩
    · intro record hrecord
      rw [mem_toList, map_eq_some_iff] at hrecord
      obtain ⟨checked, hchecked, rfl⟩ := hrecord
      apply withIntegrity_valid _ (hintegrity _ _)
      cases hsampled : inPeriod (dutyOfWords words).oraclePeriod words.index with
      | false =>
        rw [hsampled] at hchecked
        simp only [Bool.false_eq_true, if_false] at hchecked
        cases hchecked
      | true =>
        rw [hsampled] at hchecked
        exact check_valid hbase words _ _ hline checked hchecked
    · intro record hrecord
      rw [mem_toList, map_eq_some_iff] at hrecord
      obtain ⟨d, hclosed, rfl⟩ := hrecord
      exact inputRecord_valid hbase words d _ hline (hfound _ _ d hclosed) (hintegrity _ _)

theorem halt_valid (report : SliceReport) (failure : VoteFailure)
    (hreport : AllValid report.records) :
    AllValid (halt r report failure).2.records := by
  refine forall_mem_append.mpr ⟨hreport, forall_mem_singleton.mpr ?_⟩
  exact notPerformed_valid _ _ _ _ hbase (bounded_length _)
    (bounded_length _)

theorem zeroStatements_valid : AllValid (zeroStatements r) := by
  have hone : ∀ what why : String, AllValid
      [notPerformed (runProvenance r) (bounded what) (bounded why) 0] := by
    intro what why
    refine forall_mem_singleton.mpr ?_
    exact notPerformed_valid _ _ _ _ hbase (bounded_length _)
      (bounded_length _)
  refine forall_mem_append.mpr ⟨?_, ?_⟩
  · split_ifs
    · exact hone _ _
    · exact forall_mem_nil _
  · split_ifs
    · exact hone _ _
    · exact forall_mem_nil _

end

/-- The vote before a unit decides the line size the runner was made with, if it decides. -/
def LineKept (lineBytes : UInt32) (control : ControlState) (strikes : List (Nat × Stored)) : Prop :=
  ∀ words decided, (struck control strikes).read = .ok (words, decided) →
    words.lineBytes = lineBytes.toUInt64

theorem runUnit_valid (lineBytes : UInt32) (r : IntegrityRunner) (report : SliceReport)
    (memory : UnitMemory) (hbase : r.base.isValid = true) (hline : acceptsLine lineBytes = true)
    (hkept : LineKept lineBytes r.control memory.strikes) (hreport : AllValid report.records) :
    AllValid (runUnit r report memory.world).report.records ∧
      (runUnit r report memory.world).runner.base = r.base := by
  simp only [runUnit]
  split
  case h_1 failure hread => exact ⟨halt_valid hbase report failure hreport, rfl⟩
  case h_2 words control hread =>
    have hwords : acceptsLine words.lineBytes.toUInt32 = true := by
      rw [hkept words control hread, UInt32.toUInt32_toUInt64]
      exact hline
    exact runVoted_valid (r := { r with control := control }) hbase report words memory hwords hreport

/-- The votes of a slice, up to one that decides nothing, decide the line size. -/
def SliceLineKept (lineBytes : UInt32) (memory : Nat → UnitMemory) : Nat → Nat → UnitRun → Prop :=
  EachUnit (fun r world => LineKept lineBytes r.control world.strikes)
    fun k => (memory k).world

theorem runUnits_valid (lineBytes : UInt32) (hline : acceptsLine lineBytes = true)
    (memory : Nat → UnitMemory) (left done : Nat) (run : UnitRun)
    (hbase : run.runner.base.isValid = true) (hreport : AllValid run.report.records)
    (hkept : SliceLineKept lineBytes memory left done run) :
    AllValid (runUnits (fun k => (memory k).world) left done run).report.records ∧
      (runUnits (fun k => (memory k).world) left done run).runner.base = run.runner.base := by
  induction left generalizing done run with
  | zero => exact ⟨hreport, rfl⟩
  | succ left ih =>
    obtain ⟨hfirst, hrest⟩ := hkept
    obtain ⟨hvalid, hsame⟩ :=
      runUnit_valid lineBytes run.runner run.report (memory done) hbase hline hfirst hreport
    simp only [runUnits]
    split_ifs with hgoes
    · have hnext := ih (done + 1) { runUnit run.runner run.report (memory done).world with
        did := run.did ++ (runUnit run.runner run.report (memory done).world).did }
        (by rw [hsame]; exact hbase) hvalid (hrest hgoes)
      exact ⟨hnext.1, hnext.2.trans hsame⟩
    · exact ⟨hvalid, hsame⟩

inductive Call
  | slice (units : UInt64) (memory : Nat → UnitMemory)
  | finish

def SlicesRun.call (run : SlicesRun) : Call → SlicesRun
  | .slice units memory => run.next ⟨units, fun k => (memory k).world⟩
  | .finish =>
    let (runner, report) := finish run.runner
    { run with runner := runner, returned := run.returned ++ [report] }

/-- The votes of a call decide the line size that was written, where they decide. -/
def CallLineKept (lineBytes : UInt32) (run : SlicesRun) : Call → Prop
  | .slice units memory =>
    run.runner.finished = false → run.runner.halted = none →
      SliceLineKept lineBytes memory units.toNat 0 ⟨run.runner, {}, [], true⟩
  | .finish => True

def ReportsValid (run : SlicesRun) : Prop :=
  run.runner.base.isValid = true ∧
    ∀ report, .ok report ∈ run.returned → AllValid report.records

theorem ReportsValid.returns {run run' : SlicesRun} (hrun : ReportsValid run)
    {answer : Except RunnerError SliceReport} (hreturned : run'.returned = run.returned ++ [answer])
    (hbase : run'.runner.base.isValid = true)
    (hanswer : ∀ report, answer = .ok report → AllValid report.records) : ReportsValid run' := by
  refine ⟨hbase, ?_⟩
  intro report hmem
  rw [hreturned] at hmem
  rcases mem_append.mp hmem with h | h
  · exact hrun.2 report h
  · exact hanswer report (mem_singleton.mp h).symm

theorem runSlice_valid (lineBytes : UInt32) (hline : acceptsLine lineBytes = true)
    (run : SlicesRun) (units : UInt64) (memory : Nat → UnitMemory) (hrun : ReportsValid run)
    (hkept : CallLineKept lineBytes run (.slice units memory)) :
    ReportsValid (run.call (.slice units memory)) := by
  have hbase := hrun.1
  simp only [SlicesRun.call, SlicesRun.next, runSlice]
  split
  case isTrue hfinished => exact hrun.returns rfl hbase fun _ h => by cases h
  case isFalse hfinished =>
    split
    case h_1 detail hhalted => exact hrun.returns rfl hbase fun _ h => by cases h
    case h_2 hhalted =>
      obtain ⟨hvalid, hsame⟩ := runUnits_valid lineBytes hline memory units.toNat 0
        ⟨run.runner, {}, [], true⟩ hbase (forall_mem_nil _)
        (hkept (by simpa using hfinished) hhalted)
      apply hrun.returns rfl ((congrArg Provenance.isValid hsame).trans hbase)
      intro report hreport
      cases hreport
      exact hvalid

theorem finish_valid (run : SlicesRun) (hrun : ReportsValid run) :
    ReportsValid (run.call .finish) := by
  simp only [SlicesRun.call, finish]
  split_ifs with hfinished
  · exact hrun.returns rfl hrun.1 fun _ h => by cases h
  · refine hrun.returns rfl (by exact hrun.1) ?_
    intro report hreport
    cases hreport
    exact zeroStatements_valid hrun.1

theorem call_valid (lineBytes : UInt32) (hline : acceptsLine lineBytes = true) (run : SlicesRun)
    (call : Call) (hrun : ReportsValid run) (hkept : CallLineKept lineBytes run call) :
    ReportsValid (run.call call) := by
  cases call with
  | slice units memory => exact runSlice_valid lineBytes hline run units memory hrun hkept
  | finish => exact finish_valid run hrun

theorem base_valid (setup : RunnerSetup) (hisa : ∀ isa ∈ setup.base.isa, isa.toNat < kIsaPathCount)
    (hinput : ∀ integrity ∈ setup.base.inputIntegrity, integrity ≤ kNotChecked) :
    (makeSliceRunner setup).base.isValid = true := by
  show (((setup.base.workload.map (·.take kMaxTextBytes)).all fun w => w.length ≤ kMaxTextBytes) &&
    (setup.base.isa.all fun isa => isa.toNat < kIsaPathCount) &&
    (setup.base.inputIntegrity.all fun i => i ≤ 3)) = true
  have hname : ((setup.base.workload.map (·.take kMaxTextBytes)).all
      fun w => w.length ≤ kMaxTextBytes) = true := by
    cases setup.base.workload with
    | none => rfl
    | some w => exact decide_eq_true (by rw [length_take]; exact Nat.min_le_left _ _)
  have hpath : (setup.base.isa.all fun isa => isa.toNat < kIsaPathCount) = true := by
    cases hsome : setup.base.isa with
    | none => rfl
    | some isa => simpa using hisa isa hsome
  have hintegrity : (setup.base.inputIntegrity.all fun i => i ≤ 3) = true := by
    cases hsome : setup.base.inputIntegrity with
    | none => rfl
    | some integrity => exact decide_eq_true (hinput integrity hsome)
  rw [hname, hpath, hintegrity]
  rfl

def AllReceivable (shortest : UInt64 → String) (run : SlicesRun) : Prop :=
  ∀ report, .ok report ∈ run.returned → ∀ r ∈ report.records, Receivable shortest r

/-- Every record of every report can be received, as long as no vote decides a line size that was
never written. -/
theorem emitted_records_are_receivable (shortest : UInt64 → String) (setup : RunnerSetup)
    (plan : PlanSizes) (threads : UInt64) (layout : PlannedLayout)
    (hlayout : planLayout plan threads setup.lineBytes = .ok layout)
    (hisa : ∀ isa ∈ setup.base.isa, isa.toNat < kIsaPathCount)
    (hinput : ∀ integrity ∈ setup.base.inputIntegrity, integrity ≤ kNotChecked)
    (calls : List Call)
    (hkept : Along SlicesRun.call (CallLineKept setup.lineBytes) ⟨makeSliceRunner setup, [], []⟩
      calls) :
    AllReceivable shortest (run SlicesRun.call ⟨makeSliceRunner setup, [], []⟩ calls) := by
  have hline := planLayout_line plan threads setup.lineBytes layout hlayout
  have hstart : ReportsValid ⟨makeSliceRunner setup, [], []⟩ :=
    ⟨base_valid setup hisa hinput, fun _ h => absurd h not_mem_nil⟩
  have hend := run_inv_of_along ReportsValid
    (fun run call hrun hcall => call_valid setup.lineBytes hline run call hrun hcall) _ calls
    hstart hkept
  intro report hreport r hr
  exact receivable_of_valid shortest r (hend.2 report hreport r hr)

theorem lineKept_of_decides (setup : RunnerSetup) (r : IntegrityRunner) (world : UnitWorld)
    (h : Decides setup r world) : LineKept setup.lineBytes r.control world.strikes := by
  intro words decided hread
  obtain ⟨control, hdecided⟩ := h
  rw [hread] at hdecided
  cases hdecided
  rfl

theorem sliceLineKept_of_decides (setup : RunnerSetup) (memory : Nat → UnitMemory)
    (left done : Nat) (run : UnitRun)
    (h : ∀ k < left, Decides setup (runUnits (fun k => (memory k).world) k done run).runner
      (memory (done + k)).world) : SliceLineKept setup.lineBytes memory left done run := by
  induction left generalizing done run with
  | zero => trivial
  | succ left ih =>
    refine ⟨lineKept_of_decides setup _ _ (h 0 (Nat.succ_pos left)), ?_⟩
    intro hgoes
    apply ih
    intro k hk
    have hnext := h (k + 1) (Nat.succ_lt_succ hk)
    rw [runUnits, if_pos hgoes, Nat.add_comm k 1, ← Nat.add_assoc] at hnext
    exact hnext

/-- A unit whose input lost a bit before it was used. -/
def lostBit : UnitMemory where
  opened := ⟨[1, 2], [1, 3], rfl, by decide⟩
  verdict := .ok (.agreement 1)
  closed := ⟨[1, 2], [1, 2], rfl, by decide⟩

theorem lost_bit_is_receivable :
    AllReceivable (fun _ => "") (run SlicesRun.call ⟨makeSliceRunner sumSetup, [], []⟩
      [.slice 1 fun _ => lostBit, .finish]) := by
  have hdecided : SliceDecided sumSetup ⟨makeSliceRunner sumSetup, [], []⟩
      ⟨1, fun _ => lostBit.world⟩ :=
    sliceDecided_of_singleCopy sumSetup (.create (wordsAt sumSetup 3)) {} 3 [] [] _ rfl
      fun _ => ⟨0, fun _ h => absurd h not_mem_nil⟩
  have hkept : CallLineKept sumSetup.lineBytes ⟨makeSliceRunner sumSetup, [], []⟩
      (.slice 1 fun _ => lostBit) :=
    fun _ _ => sliceLineKept_of_decides sumSetup _ _ _ _ hdecided
  have hplan : (planLayout ⟨2, 2, 0, 4⟩ 1 sumSetup.lineBytes).isOk = true := by decide
  cases hlayout : planLayout ⟨2, 2, 0, 4⟩ 1 sumSetup.lineBytes with
  | error e =>
    rw [hlayout] at hplan
    cases hplan
  | ok layout =>
    apply emitted_records_are_receivable (fun _ => "") sumSetup _ _ layout hlayout
    · intro isa hisa
      cases hisa
      decide
    · intro integrity h
      cases h
    · exact ⟨hkept, trivial, trivial⟩

/-- Two copies of the control state come to hold one other value, with its right checksum. -/
def forgedLine : UnitMemory :=
  let forged := encodeControl { wordsAt sumSetup 3 with lineBytes := 3 }
  { lostBit with strikes := [(0, forged), (1, forged)] }

theorem forged_line_is_not_receivable :
    (planLayout ⟨2, 2, 0, 4⟩ 1 sumSetup.lineBytes).isOk = true ∧ sumSetup.base.isa = some 0 ∧
      (run SlicesRun.call ⟨makeSliceRunner sumSetup, [], []⟩
        [.slice 1 fun _ => forgedLine]).returned.map (fun answer =>
          answer.toOption.map fun report => report.records.map ErrorRecord.isValid) =
        [some [false]] := by
  decide +kernel

end Integrity

end LoadForge.Verification
