import LoadForge.Explore.Log

namespace LoadForge.Explore

open Framework Results List

variable {F : Type}

structure Kept (search : Search) (x : Execution F) : Prop where
  states : x.states.length = search.config.candidates.length
  observations : ∀ (which : Nat) (state : State F), x.states[which]? = some state →
    state.observations = taken which x.log
  references : x.references = readings x.log
  trials : x.trials = calls x.log
  since : x.sinceReference = sinceReading x.log
  lawful : Lawful (Allowed search.config) x.log

def Faulted (search : Search) (e : ExploreError) (x : Execution F) : Prop :=
  Kept search x ∧ (e.fault = .kReference → x.referenceStop.isSome = true)

/-- One call of the runner, and nothing else that the proofs look at. -/
structure Called (candidate : Candidate) (x x' : Execution F) : Prop where
  states : x'.states = x.states
  references : x'.references = x.references
  since : x'.sinceReference = x.sinceReference
  pass : x'.pass = x.pass
  trials : x'.trials = x.trials + 1
  log : x'.log = x.log ++ [.called candidate]

theorem Called.kept {search : Search} {candidate : Candidate} {x x' : Execution F}
    (hcalled : Called candidate x x') (h : Kept search x) : Kept search x' where
  states := by rw [hcalled.states, h.states]
  observations := by
    intro which state hstate
    rw [hcalled.states] at hstate
    rw [hcalled.log, taken_append, h.observations which state hstate]
    exact (append_nil _).symm
  references := by
    rw [hcalled.references, hcalled.log, readings_append, h.references]
    exact (append_nil _).symm
  trials := by
    rw [hcalled.trials, hcalled.log, calls_append, h.trials]
    rfl
  since := by
    rw [hcalled.since, hcalled.log, sinceReading_snoc, h.since]
    rfl
  lawful := by
    rw [hcalled.log]
    exact h.lawful.snoc trivial

theorem Execution.ask_eq (search : Search) (x : Execution F) :
    ∃ stopped asks, x.ask search = { x with stopped := stopped, asks := asks } := by
  unfold Execution.ask
  cases search.config.stopSignal with
  | none => exact ⟨x.stopped, x.asks, rfl⟩
  | some signal => exact ⟨signal x.asks, x.asks + 1, rfl⟩

theorem askedToStop_spec {search : Search} {x : Execution F} {good : Bool → Execution F → Prop}
    {bad : ExploreError → Execution F → Prop}
    (h : ∀ stop stopped asks, good stop { x with stopped := stopped, asks := asks }) :
    Ends (askedToStop search) x good bad := by
  obtain ⟨stopped, asks, hask⟩ := x.ask_eq search
  apply Ends.bind
  apply Ends.modify
  apply Ends.bind
  apply Ends.get
  apply Ends.pure
  rw [hask]
  exact h _ stopped asks

theorem stateAt_spec {x : Execution F} {which : Nat} {state : State F}
    (hstate : x.states[which]? = some state) {good : State F → Execution F → Prop}
    {bad : ExploreError → Execution F → Prop} (h : good state x) : Ends (stateAt which) x good bad := by
  apply Ends.bind
  apply Ends.get
  exact Ends.ofOption hstate h

section Measure

variable [Doubles F] {search : Search} {runner : TrialRunner F}

theorem measuredOf_fault {asked : Bool} {trial : TrialOutcome F} {e : ExploreError}
    (h : measuredOf search asked trial = .error e) : e.fault ≠ .kReference := by
  unfold measuredOf at h
  dsimp only at h
  split_ifs at h
  cases hscore : score search.bound trial.signature with
  | ok value =>
    rw [hscore] at h
    cases h
  | error e' =>
    rw [hscore] at h
    cases h
    exact score_fault hscore

theorem measure_spec {x : Execution F} (h : Kept search x) (candidate : Candidate) :
    Ends (measure search runner candidate) x (fun _ => Called candidate x) (Faulted search) := by
  unfold measure
  apply Ends.bind
  apply askedToStop_spec
  intro stop stopped asks
  split_ifs
  · apply Ends.throw
    exact ⟨⟨h.states, h.observations, h.references, h.trials, h.since, h.lawful⟩, nofun⟩
  · apply Ends.bind
    apply Ends.get
    apply Ends.bind
    apply Ends.modify
    dsimp only
    cases runner.run (calls x.log) candidate with
    | error e =>
      dsimp only
      apply Ends.bind
      apply askedToStop_spec
      intro stop stopped asks
      have hcalled : Called candidate x
          { ({ x with stopped := stopped, asks := asks } : Execution F).call candidate with
            stopped := stopped, asks := asks } := ⟨rfl, rfl, rfl, rfl, rfl, rfl⟩
      split_ifs
      · apply Ends.throw
        exact ⟨hcalled.kept h, nofun⟩
      · apply Ends.throw
        exact ⟨hcalled.kept h, nofun⟩
    | ok trial =>
      dsimp only
      apply Ends.bind
      apply Ends.modify
      have hcalled : Called candidate x
          ((({ x with stopped := stopped, asks := asks } : Execution F).call candidate).countSettle
            candidate.settle.isSome trial.settled) := ⟨rfl, rfl, rfl, rfl, rfl, rfl⟩
      cases hmeasured : measuredOf search candidate.settle.isSome trial with
      | error e =>
        apply Ends.throw
        exact ⟨hcalled.kept h, fun he => absurd he (measuredOf_fault hmeasured)⟩
      | ok measured =>
        apply Ends.pure
        exact hcalled

end Measure

structure Onward (x x' : Execution F) : Prop where
  pass : x'.pass = x.pass
  log : ∃ tail, x'.log = x.log ++ tail ∧ ∀ e ∈ tail, e.isTrial = true

theorem Onward.refl (x : Execution F) : Onward x x := by
  refine ⟨rfl, [], (append_nil _).symm, ?_⟩
  intro e he
  cases he

theorem Onward.trans {x x' x'' : Execution F} (h : Onward x x') (h' : Onward x' x'') :
    Onward x x'' := by
  obtain ⟨tail, hlog, htail⟩ := h.log
  obtain ⟨tail', hlog', htail'⟩ := h'.log
  refine ⟨h'.pass.trans h.pass, tail ++ tail', ?_, ?_⟩
  · rw [hlog', hlog, append_assoc]
  · intro e he
    rcases mem_append.mp he with he | he
    · exact htail e he
    · exact htail' e he

theorem Onward.snoc {x x' x'' : Execution F} {e : Event F} (h : Onward x x') (hpass : x''.pass = x'.pass)
    (hlog : x''.log = x'.log ++ [e]) (he : e.isTrial = true) : Onward x x'' := by
  apply h.trans
  refine ⟨hpass, [e], hlog, ?_⟩
  intro d hd
  rw [mem_singleton.mp hd]
  exact he

theorem Called.onward {candidate : Candidate} {x x' : Execution F} (h : Called candidate x x') :
    Onward x x' :=
  (Onward.refl x).snoc h.pass h.log rfl

theorem Kept.addReference {search : Search} {x : Execution F} (h : Kept search x)
    (measured : Measured F) : Kept search (x.addReference measured) where
  states := h.states
  observations := by
    intro which state hstate
    rw [h.observations which state hstate, Execution.addReference, taken_append]
    exact (append_nil _).symm
  references := by
    rw [Execution.addReference, readings_append, h.references]
    rfl
  trials := by
    rw [Execution.addReference, calls_append, h.trials]
    rfl
  since := by
    rw [Execution.addReference, sinceReading_snoc]
    rfl
  lawful := h.lawful.snoc trivial

/-- The anchor has been measured and no reference trial is due. -/
structure Ready (search : Search) (x : Execution F) : Prop where
  anchored : search.config.referenceReplicates ≤ x.references.length
  due : x.sinceReference < search.config.interleaveEvery

theorem getElem?_set_cases {α : Type} {xs : List α} {i j : Nat} {a b : α}
    (h : (xs.set i a)[j]? = some b) : j = i ∧ b = a ∨ j ≠ i ∧ xs[j]? = some b := by
  rw [getElem?_set] at h
  split_ifs at h with hij hlt
  · cases h
    exact .inl ⟨hij.symm, rfl⟩
  · exact .inr ⟨Ne.symm hij, h⟩

theorem Kept.leave {search : Search} {x : Execution F} (h : Kept search x) {which : Nat}
    {state : State F} (hstate : x.states[which]? = some state) (verdict : Verdict) :
    Kept search (x.leave which state verdict) where
  states := by
    rw [Execution.leave, length_set, h.states]
  observations := by
    intro i s hs
    rcases getElem?_set_cases hs with ⟨rfl, rfl⟩ | ⟨-, hs⟩
    · exact h.observations i state hstate
    · exact h.observations i s hs
  references := h.references
  trials := h.trials
  since := h.since
  lawful := h.lawful

theorem Kept.observe {search : Search} {x : Execution F} (h : Kept search x) (hready : Ready search x)
    {which : Nat} {state : State F} (hstate : x.states[which]? = some state) (measured : Measured F) :
    Kept search (x.observe which state measured) where
  states := by
    rw [Execution.observe, length_set, h.states]
  observations := by
    intro i s hs
    rw [Execution.observe, taken_append]
    rcases getElem?_set_cases hs with ⟨rfl, rfl⟩ | ⟨hne, hs⟩
    · dsimp only
      rw [h.observations i state hstate]
      simp [taken, Event.observationOf]
    · rw [h.observations i s hs]
      simp [taken, Event.observationOf, Ne.symm hne]
  references := by
    rw [Execution.observe, readings_append, h.references]
    exact (append_nil _).symm
  trials := by
    rw [Execution.observe, calls_append, h.trials]
    rfl
  since := by
    rw [Execution.observe, sinceReading_snoc, h.since]
    rfl
  lawful := by
    apply h.lawful.snoc
    refine ⟨?_, ?_⟩
    · rw [← h.references]
      exact hready.anchored
    · rw [← h.since]
      exact hready.due

section Trials

variable [Doubles F] {search : Search} {runner : TrialRunner F}

/-- A reading of the reference, and nothing else that the proofs look at. -/
structure Referred (search : Search) (x x' : Execution F) : Prop where
  kept : Kept search x'
  onward : Onward x x'
  states : x'.states = x.states
  references : x'.references.length = x.references.length + 1
  since : x'.sinceReference = 0

theorem referenceTrial_spec {x : Execution F} (h : Kept search x) :
    Ends (referenceTrial search runner) x (fun _ => Referred search x) (Faulted search) := by
  unfold referenceTrial
  apply Ends.bind
  apply (measure_spec h search.config.reference).mono
  · intro measured x' hcalled
    have hkept := hcalled.kept h
    split_ifs
    · apply Ends.bind
      apply Ends.modify
      apply Ends.throw
      refine ⟨⟨hkept.states, hkept.observations, hkept.references, hkept.trials, hkept.since,
        hkept.lawful⟩, fun _ => rfl⟩
    · apply Ends.modify
      refine ⟨hkept.addReference measured, hcalled.onward.snoc rfl rfl rfl, hcalled.states, ?_, rfl⟩
      rw [Execution.addReference, length_append, hcalled.references]
      rfl
  · intro e x' he
    exact he

/-- The last scored trial is followed by a reading; the candidates are as they were. -/
structure Closed (search : Search) (x x' : Execution F) : Prop where
  kept : Kept search x'
  onward : Onward x x'
  states : x'.states = x.states
  references : x.references.length ≤ x'.references.length
  since : x'.sinceReference = 0

theorem closeReference_spec {x : Execution F} (h : Kept search x) :
    Ends (closeReference search runner) x (fun _ => Closed search x) (Faulted search) := by
  unfold closeReference
  apply Ends.bind
  apply Ends.get
  split_ifs with hzero
  · apply Ends.pure
    exact ⟨h, .refl x, rfl, le_refl _, hzero⟩
  · apply (referenceTrial_spec h).mono
    · intro _ x' hx'
      refine ⟨hx'.kept, hx'.onward, hx'.states, ?_, hx'.since⟩
      rw [hx'.references]
      exact Nat.le_succ _
    · intro e x' he
      exact he

/-- A trial of one candidate: it has left the search, or has one more observation. -/
structure Tried (search : Search) (which : Nat) (state : State F) (x x' : Execution F) : Prop where
  kept : Kept search x'
  ready : Ready search x'
  onward : Onward x x'
  states : ∃ next : State F, x'.states = x.states.set which next ∧
    next.selectionObservations = state.selectionObservations ∧
    (next.alive = false ∨
      next.alive = state.alive ∧ next.observations.length = state.observations.length + 1)

theorem candidateTrial_spec {x : Execution F} (h : Kept search x) (hready : Ready search x) {which : Nat}
    {state : State F} (hstate : x.states[which]? = some state) :
    Ends (candidateTrial search runner which) x (fun _ => Tried search which state x)
      (Faulted search) := by
  have hlt : which < search.config.candidates.length := by
    rw [← h.states]
    exact (List.getElem?_eq_some_iff.mp hstate).1
  unfold candidateTrial
  apply Ends.bind
  apply Ends.ofOption (getElem?_eq_getElem hlt)
  apply Ends.bind
  apply (measure_spec h _).mono
  · intro measured x₁ hcalled
    have hkept := hcalled.kept h
    have hready₁ : Ready search x₁ :=
      ⟨hcalled.references ▸ hready.anchored, hcalled.since ▸ hready.due⟩
    have hstate₁ : x₁.states[which]? = some state := hcalled.states ▸ hstate
    apply Ends.bind
    apply stateAt_spec hstate₁
    split_ifs
    · have hstates : (x₁.leave which state measured.verdict).states = x.states.set which
          { state with alive := false,
                       fate := if measured.verdict = .kFindings then .kFindings else .kIncomplete } := by
        rw [Execution.leave, hcalled.states]
      have honward : Onward x (x₁.leave which state measured.verdict) :=
        ⟨hcalled.onward.pass, hcalled.onward.log⟩
      apply Ends.modify
      exact ⟨hkept.leave hstate₁ measured.verdict, ⟨hready₁.anchored, hready₁.due⟩, honward, _, hstates,
        rfl, .inl rfl⟩
    · have hobserved := hkept.observe hready₁ hstate₁ measured
      have honward : Onward x (x₁.observe which state measured) := hcalled.onward.snoc rfl rfl rfl
      have hstates : (x₁.observe which state measured).states = x.states.set which
          { state with observations := state.observations ++
              [⟨measured.atNs, measured.value, measured.note⟩] } := by
        rw [Execution.observe, hcalled.states]
      apply Ends.bind
      apply Ends.modify
      apply Ends.bind
      apply Ends.get
      split_ifs with hdue
      · apply (referenceTrial_spec hobserved).mono
        · intro _ x₂ hx₂
          refine ⟨hx₂.kept, ⟨?_, ?_⟩, honward.trans hx₂.onward, _, hx₂.states.trans hstates, rfl,
            .inr ⟨rfl, length_append⟩⟩
          · rw [hx₂.references]
            exact Nat.le_succ_of_le hready₁.anchored
          · rw [hx₂.since]
            exact search.interleaveEvery_pos
        · intro e x₂ he
          exact he
      · apply Ends.pure
        refine ⟨hobserved, ⟨hready₁.anchored, Nat.lt_of_not_le hdue⟩, honward, _, hstates, rfl,
          .inr ⟨rfl, length_append⟩⟩
  · intro e x₁ he
    exact he

end Trials

end LoadForge.Explore
