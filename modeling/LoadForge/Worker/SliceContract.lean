import LoadForge.Verification.SliceAccount
import LoadForge.Worker.VerifiedRun

namespace LoadForge.Worker

open Framework Verification Verification.Integrity List

def workIndex : Work → UInt64
  | .generated index => index
  | .computed index => index
  | .checked index => index

/-- What was done to one unit: it starts with writing the unit's input, and touches no other. -/
def IsUnit (index : UInt64) (steps : List Work) : Prop :=
  steps.head? = some (.generated index) ∧ ∀ work ∈ steps, workIndex work = index

def UnitsFrom : Nat → List (List Work) → Prop
  | _, [] => True
  | count, steps :: rest => IsUnit (UInt64.ofNat count) steps ∧ UnitsFrom (count + 1) rest

theorem unitsFrom_append (count : Nat) (a b : List (List Work)) :
    UnitsFrom count (a ++ b) ↔ UnitsFrom count a ∧ UnitsFrom (count + a.length) b := by
  induction a generalizing count with
  | nil => simp [UnitsFrom]
  | cons steps a ih =>
    have hcount : count + 1 + a.length = count + (a.length + 1) := by omega
    simp [UnitsFrom, ih, hcount, and_assoc]

/-- The vote before a unit, if it decides, decides the index the runner is at. -/
def IndexKept (r : IntegrityRunner) (world : UnitWorld) : Prop :=
  ∀ words control, (struck r.control world.strikes).read = .ok (words, control) →
    words.index = r.nextIndex

/-- Whether the vote gives the index the runner is at, or nothing. -/
def givesIndex (r : IntegrityRunner) (world : UnitWorld) : Bool :=
  match (struck r.control world.strikes).read with
  | .ok (words, _) => words.index == r.nextIndex
  | .error _ => true

theorem givesIndex_iff (r : IntegrityRunner) (world : UnitWorld) :
    givesIndex r world = true ↔ IndexKept r world := by
  rw [givesIndex, IndexKept]
  cases (struck r.control world.strikes).read with
  | error failure => simp
  | ok voted =>
    obtain ⟨words, control⟩ := voted
    simp

instance (r : IntegrityRunner) (world : UnitWorld) : Decidable (IndexKept r world) :=
  decidable_of_iff _ (givesIndex_iff r world)

theorem runVoted_unit (r : IntegrityRunner) (report : SliceReport) (words : ControlWords)
    (world : UnitWorld) :
    IsUnit words.index (runVoted r report words world).did ∧
      (runVoted r report words world).runner.nextIndex = words.index + 1 ∧
      (runVoted r report words world).runner.total = r.total ∧
      (runVoted r report words world).goesOn = true := by
  simp only [runVoted]
  split
  · refine ⟨⟨rfl, ?_⟩, rfl, rfl, rfl⟩
    intro work hwork
    simp only [runSpoilt, mem_cons, not_mem_nil, or_false, or_self] at hwork
    rw [hwork]
    rfl
  · refine ⟨⟨rfl, ?_⟩, rfl, rfl, rfl⟩
    intro work hwork
    simp only [mem_append] at hwork
    rcases hwork with (((hwork | hwork) | hwork) | hwork) | hwork
    · rw [mem_singleton.mp hwork]
      rfl
    · split_ifs at hwork
      · rw [mem_singleton.mp hwork]
        rfl
      · cases hwork
    · rw [mem_singleton.mp hwork]
      rfl
    · split_ifs at hwork
      · rw [mem_singleton.mp hwork]
        rfl
      · cases hwork
    · split_ifs at hwork
      · rw [mem_singleton.mp hwork]
        rfl
      · cases hwork

theorem runUnit_unit (r : IntegrityRunner) (report : SliceReport) (world : UnitWorld)
    (hkept : IndexKept r world) :
    (runUnit r report world).runner.total = r.total ∧
      (((runUnit r report world).goesOn = true ∧
          IsUnit r.nextIndex (runUnit r report world).did ∧
          (runUnit r report world).runner.nextIndex = r.nextIndex + 1) ∨
        ((runUnit r report world).goesOn = false ∧ (runUnit r report world).did = [] ∧
          (runUnit r report world).runner.nextIndex = r.nextIndex)) := by
  simp only [runUnit]
  split
  case h_1 failure hread => exact ⟨rfl, .inr ⟨rfl, rfl, rfl⟩⟩
  case h_2 words control hread =>
    have hindex := hkept words control hread
    obtain ⟨hunit, hnext, htotal, hgoes⟩ :=
      runVoted_unit { r with control := control } report words world
    rw [hindex] at hunit hnext
    exact ⟨htotal, .inl ⟨hgoes, hunit, hnext⟩⟩

theorem runUnits_units (world : Nat → UnitWorld) (left done count : Nat) (run : UnitRun)
    (hindex : run.runner.nextIndex = UInt64.ofNat count)
    (hkept : EachUnit IndexKept world left done run) :
    ∃ units, (runUnits world left done run).did = run.did ++ units.flatten ∧
      UnitsFrom count units ∧
      (runUnits world left done run).runner.nextIndex = UInt64.ofNat (count + units.length) ∧
      (runUnits world left done run).runner.total = run.runner.total := by
  induction left generalizing done count run with
  | zero => exact ⟨[], by simp [runUnits], trivial, hindex, rfl⟩
  | succ left ih =>
    obtain ⟨hfirst, hrest⟩ := hkept
    obtain ⟨htotal, hunit⟩ := runUnit_unit run.runner run.report (world done) hfirst
    rcases hunit with ⟨hgoes, hsteps, hnext⟩ | ⟨hstops, hdid, hnext⟩
    · have hcount : (runUnit run.runner run.report (world done)).runner.nextIndex =
          UInt64.ofNat (count + 1) := by
        rw [hnext, hindex, UInt64.ofNat_add]
        rfl
      obtain ⟨units, hdid, hunits, hlast, hsame⟩ := ih (done + 1) (count + 1)
        { runUnit run.runner run.report (world done) with
          did := run.did ++ (runUnit run.runner run.report (world done)).did } hcount (hrest hgoes)
      have hstep : runUnits world (left + 1) done run = runUnits world left (done + 1)
          { runUnit run.runner run.report (world done) with
            did := run.did ++ (runUnit run.runner run.report (world done)).did } := by
        simp only [runUnits, hgoes, if_true]
      rw [hindex] at hsteps
      refine ⟨(runUnit run.runner run.report (world done)).did :: units, ?_, ⟨hsteps, hunits⟩, ?_,
        ?_⟩
      · simp [hstep, hdid]
      · rw [hstep, hlast, length_cons]
        congr 1
        omega
      · rw [hstep, hsame]
        exact htotal
    · refine ⟨[], ?_, trivial, ?_, ?_⟩
      · simp [runUnits, hstops, hdid]
      · simp only [runUnits, hstops, Bool.false_eq_true, if_false]
        rw [hnext]
        exact hindex
      · simp only [runUnits, hstops, Bool.false_eq_true, if_false]
        exact htotal

theorem runSlice_units (r : IntegrityRunner) (units : UInt64) (world : Nat → UnitWorld)
    (count : Nat) (hindex : r.nextIndex = UInt64.ofNat count)
    (hkept : r.finished = false → r.halted = none →
      EachUnit IndexKept world units.toNat 0 ⟨r, {}, [], true⟩) :
    (∃ stopped, runSlice r units world = ⟨r, [], .error stopped⟩) ∨
    ∃ report blocks, (runSlice r units world).report = .ok report ∧
      (runSlice r units world).did = blocks.flatten ∧ UnitsFrom count blocks ∧
      (runSlice r units world).runner.nextIndex = UInt64.ofNat (count + blocks.length) ∧
      report.nextIndex = UInt64.ofNat (count + blocks.length) ∧
      (runSlice r units world).runner.total = r.total.add report.tally := by
  simp only [runSlice]
  split
  case isTrue hfinished => exact .inl ⟨_, rfl⟩
  case isFalse hfinished =>
    split
    case h_1 detail hhalted => exact .inl ⟨_, rfl⟩
    case h_2 hhalted =>
      obtain ⟨blocks, hdid, hunits, hnext, htotal⟩ := runUnits_units world units.toNat 0 count
        ⟨r, {}, [], true⟩ hindex (hkept (by simpa using hfinished) hhalted)
      refine .inr ⟨_, blocks, rfl, hdid, hunits, hnext, hnext, ?_⟩
      rw [htotal]

end LoadForge.Worker
