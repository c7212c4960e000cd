import LoadForge.Explore.Estimate
import LoadForge.Framework.Attempt

namespace LoadForge.Explore

open Framework Results Telemetry

/-- The search as configured; `stopSignal asks` is what it hears after asking `asks` times before. -/
structure SearchConfig where
  objective : Objective
  reference : Candidate
  candidates : List Candidate
  baseReplicates : Nat := 1
  eliminationFactor : Nat := 2
  finalReplicates : Nat := 3
  interleaveEvery : Nat := 4
  referenceReplicates : Nat := 2
  stopSignal : Option (Nat → Option Int) := none

inductive Fate
  | kSurvivor | kEliminated | kFindings | kIncomplete | kStopped
  deriving DecidableEq

inductive Ranking
  | kNone | kSole | kSeparated | kIndistinguishable
  deriving DecidableEq

structure TrialNote where
  correctedErrors : Bool := false
  unsettled : Bool := false
  deriving DecidableEq

def unscored (verdict : Verdict) : Bool := verdict == .kFindings || verdict == .kIncomplete

def parameterProblem (config : SearchConfig) : Option String :=
  if config.candidates = [] then some "no candidates"
  else if config.baseReplicates < 1 then some "base_replicates must be at least 1"
  else if config.eliminationFactor < 2 then some "elimination_factor must be at least 2"
  else if config.finalReplicates < 2 then
    some "final_replicates must be at least 2: a worst case needs a variance"
  else if config.interleaveEvery < 1 then some "interleave_every must be at least 1"
  else if config.referenceReplicates < 1 then some "reference_replicates must be at least 1"
  else none

/-- The ids already `seen`, against each candidate's in turn. -/
def identityFrom (seen : List String) : List Candidate → Option String
  | [] => none
  | candidate :: rest =>
    if candidate.id = "" then some "a candidate has no id"
    else if candidate.id ∈ seen then
      some ("candidate id " ++ candidate.id ++ " is used twice, or is the reference's")
    else identityFrom (candidate.id :: seen) rest

def identityProblem (config : SearchConfig) : Option String :=
  if config.reference.id = "" then some "the reference has no id"
  else identityFrom [config.reference.id] config.candidates

def dutyProblem (config : SearchConfig) : Option ExploreError :=
  (config.candidates.find? fun candidate => candidate.duty != config.reference.duty).map
    fun candidate => makeError .kDutyCycle ("candidate " ++ candidate.id ++
      " verifies at a different duty cycle than " ++ config.reference.id)

/-- A settle phase is measured on a gauge this machine can read. -/
def settleProblem (capabilities : CapabilityReport) (candidate : Candidate) : Option ExploreError :=
  match candidate.settle with
  | none => none
  | some settle =>
    let name := settle.metric
    if settle.maxNs < settle.windowNs then
      some (makeError .kConfiguration ("settle window of " ++ candidate.id ++
        " is longer than its settle maximum"))
    else
      match capabilities.statuses.find? fun status => status.metric.name == name with
      | none =>
        some (makeError .kUnknownMetric ("settle metric " ++ name ++ " of " ++ candidate.id ++
          " is not in the capability report"))
      | some status =>
        match status.unavailable with
        | some why =>
          some (makeError .kMetricUnavailable ("settle metric " ++ name ++ " of " ++ candidate.id ++
            " is unavailable: " ++ why.detail ++ " (" ++ why.remediation ++ ")"))
        | none =>
          if status.metric.kind ≠ .kGauge then
            some (makeError .kConfiguration ("settle metric " ++ name ++ " of " ++ candidate.id ++
              " is not a gauge"))
          else none

structure Search where
  config : SearchConfig
  bound : BoundObjective
  accepted : parameterProblem config = none

theorem Search.parameters (search : Search) :
    search.config.candidates ≠ [] ∧ 1 ≤ search.config.baseReplicates ∧
      2 ≤ search.config.eliminationFactor ∧ 2 ≤ search.config.finalReplicates ∧
      1 ≤ search.config.interleaveEvery ∧ 1 ≤ search.config.referenceReplicates := by
  have h := search.accepted
  unfold parameterProblem at h
  split_ifs at h with hcandidates hbase hfactor hfinal hinterleave hreference
  refine ⟨hcandidates, ?_, ?_, ?_, ?_, ?_⟩ <;> omega

theorem Search.interleaveEvery_pos (search : Search) : 0 < search.config.interleaveEvery :=
  search.parameters.2.2.2.2.1

theorem Search.two_le_factor (search : Search) : 2 ≤ search.config.eliminationFactor :=
  search.parameters.2.2.1

def refuse : Option ExploreError → Except ExploreError Unit
  | some e => .error e
  | none => .ok ()

def Search.configure (config : SearchConfig) (capabilities : CapabilityReport) :
    Except ExploreError Search := do
  let bound ← config.objective.bind capabilities
  match accepted : parameterProblem config with
  | some problem => .error (makeError .kConfiguration problem)
  | none =>
    refuse ((identityProblem config).map (makeError .kConfiguration))
    refuse (dutyProblem config)
    refuse (settleProblem capabilities config.reference)
    refuse (config.candidates.findSome? (settleProblem capabilities))
    .ok ⟨config, bound, accepted⟩

structure Measured (F : Type) where
  verdict : Verdict
  note : TrialNote
  atNs : Int
  value : F

structure Observation (F : Type) where
  atNs : Int
  raw : F
  note : TrialNote

structure State (F : Type) where
  alive : Bool := true
  fate : Fate := .kSurvivor
  rounds : Nat := 0
  observations : List (Observation F) := []
  selectionObservations : Nat := 0

/-- What happens in a search, for the proofs. -/
inductive Event (F : Type)
  | called (candidate : Candidate)
  | reference (point : ReferencePoint F)
  | scored (which : Nat) (observation : Observation F)
  | ranked (entering leaving : List (State F))
  | chosen (which : Nat)

def Event.isCall {F : Type} : Event F → Bool
  | .called _ => true
  | _ => false

def calls {F : Type} (log : List (Event F)) : Nat := log.countP (·.isCall)

/-- One search in progress; `asks` and `log` are the proofs'. -/
structure Execution (F : Type) where
  states : List (State F)
  references : List (ReferencePoint F) := []
  referenceNotes : List TrialNote := []
  anchor : F
  anchored : Bool := false
  referenceStop : Option Verdict := none
  stopped : Option Int := none
  pass : Nat := 0
  sinceReference : Nat := 0
  trials : Nat := 0
  settleTrials : Nat := 0
  unsettledTrials : Nat := 0
  rounds : Nat := 0
  asks : Nat := 0
  log : List (Event F) := []

namespace Execution

variable {F : Type} [Doubles F]

def start (search : Search) : Execution F where
  states := search.config.candidates.map fun _ => {}
  anchor := 0.0

variable (x : Execution F)

def aliveCount : Nat := x.states.countP (·.alive)

/-- The observations from index `first` on, drift-corrected. -/
def correctedSamples (state : State F) (first : Nat) : List F :=
  (state.observations.drop first).map fun observation =>
    corrected observation.raw (baselineAt x.references observation.atNs) x.anchor

def correctionOf (search : Search) (x : Execution F) (state : State F) (first : Nat) : Correction F :=
  if state.observations.length ≤ first then noCorrection
  else
    let times := (state.observations.drop first).map (·.atNs)
    ⟨correctionGain x.references times search.config.referenceReplicates *
        referenceVariance x.references,
      referenceDegrees x.references.length⟩

def ask (search : Search) (x : Execution F) : Execution F :=
  match search.config.stopSignal with
  | some signal => { x with stopped := signal x.asks, asks := x.asks + 1 }
  | none => x

def call (candidate : Candidate) : Execution F :=
  { x with trials := x.trials + 1, log := x.log ++ [.called candidate] }

def countSettle (asked settled : Bool) : Execution F :=
  { x with settleTrials := x.settleTrials + asked.toNat
           unsettledTrials := x.unsettledTrials + (asked && !settled).toNat }

def addReference (measured : Measured F) : Execution F :=
  let point : ReferencePoint F := ⟨measured.atNs, measured.value⟩
  { x with references := x.references ++ [point]
           referenceNotes := x.referenceNotes ++ [measured.note]
           sinceReference := 0
           log := x.log ++ [.reference point] }

def setAnchor : Execution F :=
  { x with anchor := (estimate (x.references.map (·.value)) noCorrection).mean, anchored := true }

/-- A candidate whose trial found something or did not finish leaves the search. -/
def leave (which : Nat) (state : State F) (verdict : Verdict) : Execution F :=
  let fate := if verdict = .kFindings then .kFindings else .kIncomplete
  { x with states := x.states.set which { state with alive := false, fate := fate } }

def observe (which : Nat) (state : State F) (measured : Measured F) : Execution F :=
  let observation : Observation F := ⟨measured.atNs, measured.value, measured.note⟩
  { x with states := x.states.set which { state with observations := state.observations ++ [observation] }
           sinceReference := x.sinceReference + 1
           log := x.log ++ [.scored which observation] }

def choose (which : Nat) (state : State F) : Execution F :=
  { x with states := x.states.set which { state with selectionObservations := state.observations.length }
           log := x.log ++ [.chosen which] }

/-- The candidates still in the search by corrected mean, in configured order. -/
def scores (search : Search) (x : Execution F) : List (F × Nat) :=
  (x.states.zipIdx.filter (·.1.alive)).map fun (state, which) =>
    (signOf search.bound.direction * (estimate (x.correctedSamples state 0) noCorrection).mean, which)

def stableSort (ranked : List (F × Nat)) : List (F × Nat) :=
  ranked.mergeSort fun lhs rhs => !decide (lhs.1 < rhs.1)

def keptOf (search : Search) (n : Nat) : Nat :=
  n / search.config.eliminationFactor + (decide (n % search.config.eliminationFactor ≠ 0)).toNat

def strikeOut (states : List (State F)) (which : Nat) : List (State F) :=
  states.modify which fun state => { state with alive := false, fate := .kEliminated }

def countRound (state : State F) : State F :=
  if state.alive then { state with rounds := state.rounds + 1 } else state

/-- Keeps the worse `ceil(n / factor)` by corrected mean. -/
def eliminate (search : Search) (x : Execution F) : Execution F :=
  let ranked := stableSort (x.scores search)
  let out := (ranked.drop (keptOf search ranked.length)).map (·.2)
  let leaving := out.foldl strikeOut (x.states.map countRound)
  { x with states := leaving, log := x.log ++ [.ranked x.states leaving] }

end Execution

section Steps

variable {F : Type} [Doubles F] (search : Search) (runner : TrialRunner F)

abbrev Step (F α : Type) : Type := Attempt (Execution F) ExploreError α

def askedToStop : Step F Bool := do
  modify (·.ask search)
  let x ← get
  return x.stopped.isSome

def measuredOf (search : Search) (asked : Bool) (trial : TrialOutcome F) :
    Except ExploreError (Measured F) :=
  let window := trial.signature.window
  let note : TrialNote := ⟨trial.verdict == .kCorrectedErrors, asked && !trial.settled⟩
  let atNs := window.startNs + (window.endNs - window.startNs).tdiv 2
  if unscored trial.verdict then .ok ⟨trial.verdict, note, atNs, 0.0⟩
  else (score search.bound trial.signature).map fun value => ⟨trial.verdict, note, atNs, value⟩

def measure (candidate : Candidate) : Step F (Measured F) := do
  if ← askedToStop search then
    throw (makeError .kTrial ("a signal asked for the end before " ++ candidate.id))
  else
    let x ← get
    modify (·.call candidate)
    match runner.run (calls x.log) candidate with
    | .error e =>
      if ← askedToStop search then throw (makeError .kTrial (candidate.id ++ ": ended by the signal"))
      else throw ⟨.kTrial, candidate.id ++ ": " ++ e.detail, some e.fault⟩
    | .ok trial =>
      modify (·.countSettle candidate.settle.isSome trial.settled)
      match measuredOf search candidate.settle.isSome trial with
      | .error e => throw e
      | .ok measured => return measured

def referenceTrial : Step F Unit := do
  let measured ← measure search runner search.config.reference
  if unscored measured.verdict then
    modify fun x => { x with referenceStop := some measured.verdict }
    throw (makeError .kReference ("the reference " ++ search.config.reference.id ++ " ended " ++
      measured.verdict.describe))
  else modify (·.addReference measured)

def anchor : Step F Unit := do
  (List.range search.config.referenceReplicates).forM fun _ => referenceTrial search runner
  modify (·.setAnchor)

def closeReference : Step F Unit := do
  let x ← get
  if x.sinceReference = 0 then pure () else referenceTrial search runner

def stateAt (which : Nat) : Step F (State F) := do
  let x ← get
  Attempt.ofOption x.states[which]?

def candidateTrial (which : Nat) : Step F Unit := do
  let candidate ← Attempt.ofOption search.config.candidates[which]?
  let measured ← measure search runner candidate
  let state ← stateAt which
  if unscored measured.verdict then modify (·.leave which state measured.verdict)
  else
    modify (·.observe which state measured)
    let x ← get
    if search.config.interleaveEvery ≤ x.sinceReference then referenceTrial search runner else pure ()

/-- Every candidate still in the search once, in configured order. -/
def onePass : Step F Unit := do
  let x ← get
  (List.range x.states.length).forM fun which => do
    let state ← stateAt which
    if state.alive then candidateTrial search runner which else pure ()

def passesLeft : Nat → Step F Unit
  | 0 => pure ()
  | left + 1 => do
    onePass search runner
    modify fun x => { x with pass := x.pass + 1 }
    passesLeft left

def passes (target : Nat) : Step F Unit := do
  let x ← get
  passesLeft search runner (target - x.pass)

/-- The rounds of at most `fuel` eliminations; the target is a 64-bit word. -/
def rounds : Nat → Nat → Step F Unit
  | 0, _ => Attempt.stuck
  | fuel + 1, target => do
    let x ← get
    if 1 < x.aliveCount then
      passes search runner target
      closeReference search runner
      modify (·.eliminate search)
      modify fun x => { x with rounds := x.rounds + 1 }
      rounds fuel (target * search.config.eliminationFactor % 2 ^ 64)
    else pure ()

def freshTrials (which : Nat) : Nat → Step F Unit
  | 0 => pure ()
  | fresh + 1 => do
    let state ← stateAt which
    if state.alive then
      candidateTrial search runner which
      freshTrials which fresh
    else pure ()

def freshReplicates : Step F Unit := do
  let x ← get
  match x.states.findIdx? (·.alive) with
  | none => pure ()
  | some which =>
    let state ← stateAt which
    modify (·.choose which state)
    freshTrials search runner which search.config.finalReplicates

def execute (fuel : Nat) : Step F Unit := do
  anchor search runner
  rounds search runner fuel search.config.baseReplicates
  freshReplicates search runner
  closeReference search runner

end Steps

structure CandidateReport (F : Type) where
  id : String
  fate : Fate
  rounds : Nat
  samples : List F
  notes : List TrialNote
  selectionReplicates : Nat
  raw : Estimate F
  corrected : Estimate F

structure SearchReport (F : Type) where
  objective : BoundObjective
  candidates : List (CandidateReport F)
  worstCase : Option (WorstCase F) := none
  ranking : Ranking := .kNone
  rival : String := ""
  uncompared : List String := []
  referenceStop : Option Verdict
  references : List (ReferencePoint F)
  referenceNotes : List TrialNote
  anchor : F
  drift : F
  reference : Estimate F
  trials : Nat
  correctedErrorTrials : Nat
  settleTrials : Nat
  unsettledTrials : Nat
  rounds : Nat
  stopSignal : Option Int

section Report

variable {F : Type} [Doubles F] (search : Search)

namespace Execution

def endedEarly (x : Execution F) : Bool := x.referenceStop.isSome || x.stopped.isSome

/-- A survivor's estimates are from the replicates that did not choose it. -/
def candidateReport (x : Execution F) (candidate : Candidate) (state : State F) : CandidateReport F :=
  let first := if state.alive then state.selectionObservations else 0
  { id := candidate.id
    fate := if state.alive && x.endedEarly then .kStopped else state.fate
    rounds := state.rounds
    samples := x.correctedSamples state 0
    notes := state.observations.map (·.note)
    selectionReplicates := first
    raw := estimate ((state.observations.drop first).map (·.raw)) noCorrection
    corrected := estimate (x.correctedSamples state first) (x.correctionOf search state first) }

/-- The last candidate alive in a search that was not ended early. -/
def winner (x : Execution F) : Option Nat :=
  x.states.zipIdx.foldl
    (fun winner (state, which) => if state.alive && !x.endedEarly then some which else winner) none

end Execution

def isEliminated (entry : CandidateReport F) : Bool := entry.fate == .kEliminated

/-- The eliminated candidate with the worst corrected mean, the earlier on a tie. -/
def rivalOf (candidates : List (CandidateReport F)) : Option (CandidateReport F) :=
  let direction : F := signOf search.bound.direction
  (candidates.filter isEliminated).foldl (fun rival entry =>
    match rival with
    | none => some entry
    | some rival =>
      if direction * rival.corrected.mean < direction * entry.corrected.mean then some entry
      else some rival) none

def rankingOf (best : Estimate F) (rival : Option (CandidateReport F)) : Ranking :=
  match rival with
  | none => .kSole
  | some rival =>
    match rival.corrected.halfWidth with
    | none => .kIndistinguishable
    | some width =>
      let gap := signOf search.bound.direction * (best.mean - rival.corrected.mean)
      if best.halfWidth.getD 0.0 + width < gap then .kSeparated else .kIndistinguishable

def report (x : Execution F) : SearchReport F :=
  let candidates := List.zipWith (x.candidateReport search) search.config.candidates x.states
  let out : SearchReport F :=
    { objective := search.bound
      candidates := candidates
      referenceStop := x.referenceStop
      references := x.references
      referenceNotes := x.referenceNotes
      anchor := x.anchor
      drift := if x.anchored then valueAt x.references (x.references.length - 1) - x.anchor else 0.0
      reference := estimate (x.references.map (·.value)) noCorrection
      trials := x.trials
      correctedErrorTrials := x.referenceNotes.countP (·.correctedErrors) +
        (x.states.map fun state => state.observations.countP (·.note.correctedErrors)).sum
      settleTrials := x.settleTrials
      unsettledTrials := x.unsettledTrials
      rounds := x.rounds
      stopSignal := x.stopped }
  match x.winner.bind fun which => (candidates[which]?).bind fun best =>
      (x.states[which]?).map fun chosen => (best, chosen) with
  | none => out
  | some (best, chosen) =>
    let rival := rivalOf search candidates
    { out with
      worstCase := worstCaseOf best.id (x.correctedSamples chosen chosen.selectionObservations)
        (x.correctionOf search chosen chosen.selectionObservations)
      ranking := rankingOf search best.corrected rival
      rival := (rival.map (·.id)).getD ""
      uncompared := ((candidates.filter isEliminated).filter fun entry =>
        decide (entry.samples.length < 2)).map (·.id) }

/-- The answer of the search, and all that happened in it. -/
def Search.run (runner : TrialRunner F) (fuel : Nat) :
    Option (Except ExploreError (SearchReport F) × Execution F) :=
  ((execute search runner fuel).run.run (Execution.start search)).map fun (done, x) =>
    match done with
    | .ok _ => (.ok (report search x), x)
    | .error e =>
      if e.fault = .kReference ∨ x.stopped.isSome = true then (.ok (report search x), x)
      else (.error e, x)

def explore (runner : TrialRunner F) (config : SearchConfig) (fuel : Nat) :
    Option (Except ExploreError (SearchReport F)) :=
  match Search.configure config runner.capabilities with
  | .error e => some (.error e)
  | .ok search => (search.run runner fuel).map (·.1)

end Report

end LoadForge.Explore
