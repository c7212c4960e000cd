import LoadForge.Explore.Survivor
import LoadForge.Framework.Fallible

namespace LoadForge.Explore

open Framework Results Telemetry List Option Search

theorem winner_eq_some {F : Type} {x : Execution F} {which : Nat} (h : x.winner = some which) :
    ∃ state, x.states[which]? = some state ∧ state.alive = true ∧ x.endedEarly = false := by
  have hpick : ∀ (pairs : List (State F × Nat)) (first : Option Nat),
      pairs.foldl (fun winner pair => if pair.1.alive && !x.endedEarly then some pair.2 else winner)
        first = some which →
      first = some which ∨
        ∃ pair ∈ pairs, pair.2 = which ∧ pair.1.alive = true ∧ x.endedEarly = false := by
    intro pairs
    induction pairs with
    | nil =>
      intro first hfirst
      exact .inl hfirst
    | cons pair pairs ih =>
      intro first hfold
      rw [foldl_cons] at hfold
      rcases ih _ hfold with hnow | ⟨other, hother, hrest⟩
      · split_ifs at hnow with halive
        · rw [Bool.and_eq_true, Bool.not_eq_true'] at halive
          cases hnow
          exact .inr ⟨pair, mem_cons_self, rfl, halive.1, halive.2⟩
        · exact .inl hnow
      · exact .inr ⟨other, mem_cons_of_mem _ hother, hrest⟩
  rcases hpick x.states.zipIdx none h with hnone | ⟨⟨state, i⟩, hmem, rfl, halive, hearly⟩
  · cases hnone
  · exact ⟨state, mem_zipIdx_iff_getElem?.mp hmem, halive, hearly⟩

variable {F : Type} [Doubles F]

/-- The worst-case claim that these trials of a candidate come to in a report. -/
def worstCaseOver (config : SearchConfig) (report : SearchReport F) (candidate : Candidate)
    (observations : List (Observation F)) : Option (WorstCase F) :=
  worstCaseOf candidate.id
    (observations.map fun observation =>
      corrected observation.raw (baselineAt report.references observation.atNs) report.anchor)
    ⟨correctionGain report.references (observations.map (·.atNs)) config.referenceReplicates *
        referenceVariance report.references,
      referenceDegrees report.references.length⟩

/-- The search failed, or its report says that it ended before it was done. -/
def EndedEarly (answer : Except ExploreError (SearchReport F)) : Prop :=
  ∀ report, answer = .ok report → report.referenceStop.isSome = true ∨ report.stopSignal.isSome = true

/-- A worst case is over the trials made since its candidate was chosen. -/
def ClaimedSince (config : SearchConfig) (log : List (Event F)) (report : SearchReport F)
    (claim : WorstCase F) : Prop :=
  ∃ which candidate before after, config.candidates[which]? = some candidate ∧
    log = before ++ .chosen which :: after ∧ (∀ e ∈ after, e.isTrial = true) ∧
    (taken which after).length = config.finalReplicates ∧
    claim.candidate = candidate.id ∧ claim.replicates = config.finalReplicates ∧
    worstCaseOver config report candidate (taken which after) = some claim

/-- The experimental design, said of the log of a search and of its answer. -/
structure Designed (config : SearchConfig) (log : List (Event F))
    (answer : Except ExploreError (SearchReport F)) : Prop where
  ranked : ∀ before entering leaving after, log = before ++ .ranked entering leaving :: after →
    Ranked config before entering leaving
  anchored : ∀ before which observation after, log = before ++ .scored which observation :: after →
    1 ≤ config.referenceReplicates ∧ config.referenceReplicates ≤ (readings before).length
  followed : ∀ before which observation after, log = before ++ .scored which observation :: after →
    (∃ mid point rest, after = mid ++ .reference point :: rest ∧
      scoredTrials mid < config.interleaveEvery) ∨
    readings after = [] ∧ scoredTrials after < config.interleaveEvery ∧ EndedEarly answer
  beforeRanking : ∀ before which observation mid entering leaving after,
    log = before ++ .scored which observation :: (mid ++ .ranked entering leaving :: after) →
      readings mid ≠ []
  worstCase : ∀ report claim, answer = .ok report → report.worstCase = some claim →
    ClaimedSince config log report claim
  trials : ∀ report, answer = .ok report → report.trials = calls log

section Report

variable {search : Search} {x : Execution F}

theorem report_worstCase {claim : WorstCase F} (h : (report search x).worstCase = some claim) :
    ∃ (which : Nat) (candidate : Candidate) (state : State F),
      search.config.candidates[which]? = some candidate ∧ x.states[which]? = some state ∧
      state.alive = true ∧ x.endedEarly = false ∧
      worstCaseOf candidate.id (x.correctedSamples state state.selectionObservations)
        (x.correctionOf search state state.selectionObservations) = some claim := by
  unfold report at h
  dsimp only at h
  split at h
  · cases h
  · rename_i best chosen hbest
    obtain ⟨which, hwinner, hrest⟩ := bind_eq_some_iff.mp hbest
    obtain ⟨entry, hentry, hpair⟩ := bind_eq_some_iff.mp hrest
    obtain ⟨state, hstate, heq⟩ := map_eq_some_iff.mp hpair
    cases heq
    obtain ⟨candidate, state', hcandidate, hstate', rfl⟩ := getElem?_zipWith_eq_some.mp hentry
    rw [hstate] at hstate'
    cases hstate'
    obtain ⟨state', hstate', halive, hearly⟩ := winner_eq_some hwinner
    rw [hstate] at hstate'
    cases hstate'
    exact ⟨which, candidate, _, hcandidate, hstate, halive, hearly, h⟩

theorem report_fields (search : Search) (x : Execution F) : (report search x).trials = x.trials ∧
    (report search x).references = x.references ∧ (report search x).anchor = x.anchor ∧
    (report search x).referenceStop = x.referenceStop ∧ (report search x).stopSignal = x.stopped := by
  unfold report
  dsimp only
  split <;> exact ⟨rfl, rfl, rfl, rfl, rfl⟩

theorem Finished.worstCase (h : Finished search x) {claim : WorstCase F}
    (hclaim : (report search x).worstCase = some claim) :
    ClaimedSince search.config x.log (report search x) claim := by
  obtain ⟨which, candidate, state, hcandidate, hstate, halive, -, hworst⟩ := report_worstCase hclaim
  obtain ⟨before, hchosen⟩ := h.survivor which state hstate halive
  obtain ⟨after, hlog, hafter⟩ := hchosen.log
  obtain ⟨hselection, hlength⟩ := hchosen.fresh state hstate halive
  have hobservations : state.observations = taken which before ++ taken which after := by
    rw [h.kept.observations which state hstate, hlog, taken_append]
    rfl
  have hfresh : (taken which after).length = search.config.finalReplicates := by
    rw [hobservations, length_append, hselection] at hlength
    omega
  have hdrop : state.observations.drop state.selectionObservations = taken which after := by
    rw [hobservations, hselection, drop_left]
  have hmore : ¬ state.observations.length ≤ state.selectionObservations := by
    have htwo : 2 ≤ search.config.finalReplicates := search.parameters.2.2.2.1
    omega
  obtain ⟨-, hreferences, hanchor, -, -⟩ := report_fields search x
  rw [Execution.correctedSamples, Execution.correctionOf, if_neg hmore, hdrop] at hworst
  obtain ⟨hid, hreplicates⟩ := worstCaseOf_eq_some hworst
  rw [length_map, hfresh] at hreplicates
  refine ⟨which, candidate, before, after, hcandidate, hlog, hafter, hfresh, hid, hreplicates, ?_⟩
  rw [worstCaseOver, hreferences, hanchor]
  exact hworst

theorem report_endedEarly (search : Search) (h : x.endedEarly = true) :
    EndedEarly (.ok (report search x)) ∧ (report search x).worstCase = none := by
  obtain ⟨-, -, -, hreference, hstop⟩ := report_fields search x
  constructor
  · intro r hr
    cases hr
    rw [hreference, hstop]
    exact Bool.or_eq_true_iff.mp h
  · cases hclaim : (report search x).worstCase with
    | none => rfl
    | some claim =>
      obtain ⟨-, -, -, -, -, -, hearly, -⟩ := report_worstCase hclaim
      rw [h] at hearly
      cases hearly

end Report

section Design

variable {search : Search} {x : Execution F} {answer : Except ExploreError (SearchReport F)}

theorem Kept.designed (h : Kept search x)
    (hend : x.sinceReference = 0 ∨ EndedEarly answer)
    (hworst : ∀ report claim, answer = .ok report → report.worstCase = some claim →
      ClaimedSince search.config x.log report claim)
    (htrials : ∀ report, answer = .ok report → report.trials = x.trials) :
    Designed search.config x.log answer where
  ranked := fun before entering leaving after hsplit =>
    (h.lawful before (.ranked entering leaving) after hsplit).2
  anchored := fun before which observation after hsplit =>
    ⟨search.parameters.2.2.2.2.2, (h.lawful before (.scored which observation) after hsplit).1⟩
  followed := by
    intro before which observation after hsplit
    by_cases hnone : readings after = []
    · right
      have hwhole : x.log = before ++ .scored which observation :: (after ++ []) := by
        rw [append_nil]
        exact hsplit
      refine ⟨hnone, scoredTrials_lt h.lawful hwhole hnone, ?_⟩
      rcases hend with hzero | hearly
      · rw [h.since, hsplit] at hzero
        exact absurd hnone (readings_ne_nil hzero)
      · exact hearly
    · left
      obtain ⟨mid, point, rest, rfl, hmid⟩ := exists_first_reading hnone
      exact ⟨mid, point, rest, rfl, scoredTrials_lt h.lawful hsplit hmid⟩
  beforeRanking := by
    intro before which observation mid entering leaving after hsplit
    have hsplit' : x.log =
        (before ++ .scored which observation :: mid) ++ .ranked entering leaving :: after := by
      simp [hsplit]
    exact readings_ne_nil (h.lawful _ _ after hsplit').1
  worstCase := hworst
  trials := by
    intro report hreport
    rw [htrials report hreport, h.trials]

theorem run_designed (runner : TrialRunner F) {fuel : Nat}
    (hfuel : search.config.candidates.length ≤ fuel) :
    ∃ answer x, search.run runner fuel = some (answer, x) ∧ Designed search.config x.log answer := by
  have hends : Ends (execute search runner fuel) (Execution.start search)
      (fun _ x => Finished search x ∧ x.sinceReference = 0) (Faulted search) := execute_spec hfuel
  cases hends with
  | @ok done x hrun hgood =>
    obtain ⟨hfinished, hzero⟩ := hgood
    refine ⟨.ok (report search x), x, ?_, ?_⟩
    · rw [Search.run, hrun]
      rfl
    · apply hfinished.kept.designed (.inl hzero)
      · intro r claim hr hclaim
        cases hr
        exact hfinished.worstCase hclaim
      · intro r hr
        cases hr
        exact (report_fields search x).1
  | @error e x hrun hbad =>
    obtain ⟨hkept, hreference⟩ := hbad
    by_cases hreported : e.fault = .kReference ∨ x.stopped.isSome = true
    · have hearly : x.endedEarly = true := by
        rw [Execution.endedEarly, Bool.or_eq_true]
        exact hreported.imp_left hreference
      obtain ⟨hended, hnone⟩ := report_endedEarly search hearly
      refine ⟨.ok (report search x), x, ?_, ?_⟩
      · rw [Search.run, hrun]
        exact congrArg some (if_pos hreported)
      · apply hkept.designed (.inr hended)
        · intro r claim hr hclaim
          cases hr
          rw [hnone] at hclaim
          cases hclaim
        · intro r hr
          cases hr
          exact (report_fields search x).1
    · refine ⟨.error e, x, ?_, ?_⟩
      · rw [Search.run, hrun]
        exact congrArg some (if_neg hreported)
      · apply hkept.designed
        · right
          intro r hr
          cases hr
        · intro r claim hr
          cases hr
        · intro r hr
          cases hr

theorem run_le {runner : TrialRunner F} {fuel fuel' : Nat} (hle : fuel ≤ fuel')
    {result : Except ExploreError (SearchReport F) × Execution F}
    (h : search.run runner fuel = some result) : search.run runner fuel' = some result := by
  induction hle with
  | refl => exact h
  | step _ ih =>
    obtain ⟨done, hrun, hresult⟩ := map_eq_some_iff.mp ih
    rw [Search.run, execute_below _ _ _ hrun, map_some, hresult]

theorem configure_config {config : SearchConfig} {capabilities : CapabilityReport}
    (h : configure config capabilities = .ok search) : search.config = config := by
  obtain ⟨bound, -, h⟩ := bind_eq_ok.mp h
  split at h
  · cases h
  · obtain ⟨_, -, h⟩ := bind_eq_ok.mp h
    obtain ⟨_, -, h⟩ := bind_eq_ok.mp h
    obtain ⟨_, -, h⟩ := bind_eq_ok.mp h
    obtain ⟨_, -, h⟩ := bind_eq_ok.mp h
    cases h
    rfl

end Design

/-- The search ends whatever the runner answers and whenever it is asked to stop, and keeps its
design. -/
theorem search_keeps_its_design (config : SearchConfig) (runner : TrialRunner F) (search : Search)
    (hsearch : Search.configure config runner.capabilities = .ok search) :
    ∃ answer x, (∀ fuel, config.candidates.length ≤ fuel →
        explore runner config fuel = some answer ∧ search.run runner fuel = some (answer, x)) ∧
      Designed config x.log answer := by
  have hconfig := configure_config hsearch
  subst hconfig
  obtain ⟨answer, x, hrun, hdesigned⟩ := run_designed runner (le_refl search.config.candidates.length)
  refine ⟨answer, x, ?_, hdesigned⟩
  intro fuel hfuel
  have hruns := run_le hfuel hrun
  refine ⟨?_, hruns⟩
  rw [explore, hsearch]
  exact congrArg (Option.map Prod.fst) hruns

structure Whole where
  value : Int
  deriving DecidableEq

instance : Doubles Whole where
  add a b := ⟨a.value + b.value⟩
  sub a b := ⟨a.value - b.value⟩
  mul a b := ⟨a.value * b.value⟩
  div a b := ⟨a.value / b.value⟩
  neg a := ⟨-a.value⟩
  lt a b := a.value < b.value
  le a b := a.value ≤ b.value
  natCast n := ⟨n⟩
  intCast n := ⟨n⟩
  ofScientific mantissa negative exponent :=
    ⟨if negative then mantissa / 10 ^ exponent else mantissa * 10 ^ exponent⟩
  ltDecidable a b := inferInstanceAs (Decidable (a.value < b.value))
  leDecidable a b := inferInstanceAs (Decidable (a.value ≤ b.value))
  sqrt a := a
  floor a := a
  toSize a := a.value.toNat

def packageGauge : Metric := ⟨"thermal.package", .kGauge, .kPackage, 0, none⟩

def steadyRunner : TrialRunner Whole where
  capabilities := ⟨[⟨"thermal", [⟨packageGauge, none⟩]⟩]⟩
  run calls _ := .ok
    { signature := ⟨⟨calls, calls + 1⟩, [⟨packageGauge, .gauge ⟨⟨50⟩, ⟨50⟩, ⟨50⟩, none, ⟨50⟩, none⟩⟩]⟩
      verdict := .kClean }

/-- One candidate against one reading of the reference. -/
def shortConfig (stopSignal : Option (Nat → Option Int)) : SearchConfig where
  objective := { metric := "thermal.package" }
  reference := { id := "idle" }
  candidates := [{ id := "word_sum" }]
  finalReplicates := 2
  referenceReplicates := 1
  stopSignal := stopSignal

def shortSearch (stopSignal : Option (Nat → Option Int)) : Search where
  config := shortConfig stopSignal
  bound := ⟨packageGauge, .gauge .kMean, .kHigherIsWorse⟩
  accepted := rfl

theorem configure_short (stopSignal : Option (Nat → Option Int)) :
    configure (shortConfig stopSignal) steadyRunner.capabilities =
      .ok (shortSearch stopSignal) := rfl

/-- Two of the candidates are eliminated, and the one that is left is ranked. -/
def rivalConfig : SearchConfig :=
  { shortConfig none with candidates := [{ id := "word_sum" }, { id := "sort" }, { id := "fft" }] }

def rivalSearch : Search := { shortSearch none with config := rivalConfig, accepted := rfl }

theorem rival_search_keeps_its_design :
    ∃ answer x, (∀ fuel, 3 ≤ fuel → explore steadyRunner rivalConfig fuel = some answer ∧
        rivalSearch.run steadyRunner fuel = some (answer, x)) ∧
      Designed rivalConfig x.log answer :=
  search_keeps_its_design rivalConfig steadyRunner rivalSearch rfl

/-- A signal is there from the third time the search asks. -/
def lateSignal (asks : Nat) : Option Int := if asks < 2 then none else some 15

/-- A search stopped right after a scored trial reports without a reading after it. -/
theorem stopped_search_leaves_a_trial_unfollowed :
    Search.configure (shortConfig (some lateSignal)) steadyRunner.capabilities =
        .ok (shortSearch (some lateSignal)) ∧
      ∃ report x before observation,
        (shortSearch (some lateSignal)).run steadyRunner 1 = some (.ok report, x) ∧
          report.stopSignal = some 15 ∧ x.log = before ++ [.scored 0 observation] :=
  ⟨configure_short _, _, _,
    [.called ⟨"idle", none, {}⟩, .reference ⟨0, ⟨50⟩⟩, .chosen 0, .called ⟨"word_sum", none, {}⟩], _,
    rfl, rfl, rfl⟩

end LoadForge.Explore
