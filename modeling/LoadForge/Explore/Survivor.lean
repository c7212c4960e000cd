import LoadForge.Explore.Rounds

namespace LoadForge.Explore

open Framework List

variable {F : Type}

/-- The search after `which` was chosen and has had `done` trials since, unless it has left. -/
structure Chosen (search : Search) (which : Nat) (before : List (Event F)) (done : Nat)
    (x : Execution F) : Prop where
  kept : Kept search x
  ready : Ready search x
  inside : which < search.config.candidates.length
  only : ∀ (i : Nat) (state : State F), x.states[i]? = some state → state.alive = true → i = which
  log : ∃ after, x.log = before ++ .chosen which :: after ∧ ∀ e ∈ after, e.isTrial = true
  fresh : ∀ state : State F, x.states[which]? = some state → state.alive = true →
    state.selectionObservations = (taken which before).length ∧
      state.observations.length = state.selectionObservations + done

section Chosen

variable {search : Search} {which done : Nat} {before : List (Event F)} {x x' : Execution F}

section

variable (h : Chosen search which before done x)
include h

theorem Chosen.log_onward (honward : Onward x x') :
    ∃ after, x'.log = before ++ .chosen which :: after ∧ ∀ e ∈ after, e.isTrial = true := by
  obtain ⟨after, hlog, hafter⟩ := h.log
  obtain ⟨tail, hlog', htail⟩ := honward.log
  refine ⟨after ++ tail, ?_, ?_⟩
  · simp [hlog', hlog]
  · intro e he
    rcases mem_append.mp he with he | he
    · exact hafter e he
    · exact htail e he

theorem Chosen.tried {state : State F}
    (hstate : x.states[which]? = some state) (halive : state.alive = true)
    (htried : Tried search which state x x') : Chosen search which before (done + 1) x' := by
  obtain ⟨next, hstates, hselection, hnext⟩ := htried.states
  obtain ⟨hchosen, hdone⟩ := h.fresh state hstate halive
  refine ⟨htried.kept, htried.ready, h.inside, ?_, h.log_onward htried.onward, ?_⟩
  · intro i s hs hs'
    rw [hstates] at hs
    rcases getElem?_set_cases hs with ⟨rfl, -⟩ | ⟨-, hs⟩
    · rfl
    · exact h.only i s hs hs'
  · intro s hs hs'
    rw [hstates] at hs
    rcases getElem?_set_cases hs with ⟨-, rfl⟩ | ⟨hne, -⟩
    · rcases hnext with hgone | ⟨-, hmore⟩
      · rw [hs'] at hgone
        cases hgone
      · rw [hselection, hmore, hdone]
        exact ⟨hchosen, Nat.add_assoc _ _ _⟩
    · exact absurd rfl hne

theorem Chosen.left {state : State F}
    (hstate : x.states[which]? = some state) (hgone : ¬ state.alive = true) (done' : Nat) :
    Chosen search which before done' x := by
  refine ⟨h.kept, h.ready, h.inside, h.only, h.log, ?_⟩
  intro s hs halive
  rw [hstate] at hs
  cases hs
  exact absurd halive hgone

theorem Chosen.closed (hclosed : Closed search x x') : Chosen search which before done x' := by
  refine ⟨hclosed.kept, ⟨le_trans h.ready.anchored hclosed.references, ?_⟩, h.inside, ?_,
    h.log_onward hclosed.onward, ?_⟩
  · rw [hclosed.since]
    exact search.interleaveEvery_pos
  · intro i state hstate
    rw [hclosed.states] at hstate
    exact h.only i state hstate
  · intro state hstate
    rw [hclosed.states] at hstate
    exact h.fresh state hstate

end

theorem Kept.choose (h : Kept search x) (hready : Ready search x) (hcount : x.aliveCount ≤ 1)
    {state : State F} (hstate : x.states[which]? = some state) (halive : state.alive = true) :
    Chosen search which x.log 0 (x.choose which state) := by
  have hinside : which < search.config.candidates.length := by
    rw [← h.states]
    exact (List.getElem?_eq_some_iff.mp hstate).1
  refine ⟨?_, ⟨hready.anchored, hready.due⟩, hinside, ?_, ⟨[], rfl, nofun⟩, ?_⟩
  · constructor
    case states =>
      rw [Execution.choose, length_set, h.states]
    case observations =>
      intro i s hs
      rw [Execution.choose, taken_append]
      rcases getElem?_set_cases hs with ⟨rfl, rfl⟩ | ⟨-, hs⟩
      · exact (h.observations i state hstate).trans (append_nil _).symm
      · exact (h.observations i s hs).trans (append_nil _).symm
    case references =>
      rw [Execution.choose, readings_append]
      exact h.references.trans (append_nil _).symm
    case trials =>
      rw [Execution.choose, calls_append]
      exact h.trials
    case since =>
      rw [Execution.choose, sinceReading_snoc]
      exact h.since
    case lawful => exact h.lawful.snoc trivial
  · intro i s hs hs'
    rcases getElem?_set_cases hs with ⟨rfl, -⟩ | ⟨-, hs⟩
    · rfl
    · exact standing_unique hcount (mem_standing.mpr ⟨s, hs, hs'⟩)
        (mem_standing.mpr ⟨state, hstate, halive⟩)
  · intro s hs _
    rcases getElem?_set_cases hs with ⟨-, rfl⟩ | ⟨hne, -⟩
    · rw [← h.observations which state hstate]
      exact ⟨rfl, rfl⟩
    · exact absurd rfl hne

end Chosen

/-- The end of a search: a candidate still in it was chosen and has had its fresh trials. -/
structure Finished (search : Search) (x : Execution F) : Prop where
  kept : Kept search x
  survivor : ∀ (which : Nat) (state : State F), x.states[which]? = some state → state.alive = true →
    ∃ before, Chosen search which before search.config.finalReplicates x

theorem Finished.closed {search : Search} {x x' : Execution F} (h : Finished search x) (hclosed : Closed search x x') :
    Finished search x' := by
  refine ⟨hclosed.kept, ?_⟩
  intro which state hstate halive
  rw [hclosed.states] at hstate
  obtain ⟨before, hchosen⟩ := h.survivor which state hstate halive
  exact ⟨before, hchosen.closed hclosed⟩

theorem aliveCount_le {search : Search} {x : Execution F} (h : Kept search x) :
    x.aliveCount ≤ search.config.candidates.length := by
  rw [← h.states]
  exact countP_le_length

section Execute

variable [Doubles F] {search : Search} {runner : TrialRunner F}

theorem freshTrials_spec (fresh : Nat) {which done : Nat} {before : List (Event F)} {x : Execution F}
    (h : Chosen search which before done x) :
    Ends (freshTrials search runner which fresh) x
      (fun _ => Chosen search which before (done + fresh)) (Faulted search) := by
  induction fresh generalizing done x with
  | zero =>
    apply Ends.pure
    exact h
  | succ fresh ih =>
    have hlt : which < x.states.length := by
      rw [h.kept.states]
      exact h.inside
    have hstate := getElem?_eq_getElem hlt
    unfold freshTrials
    apply Ends.bind
    apply stateAt_spec hstate
    split_ifs with halive
    · apply Ends.bind
      apply (candidateTrial_spec h.kept h.ready hstate).mono
      · intro _ x' htried
        rw [Nat.add_comm fresh 1, ← Nat.add_assoc]
        exact ih (h.tried hstate halive htried)
      · intro e x' he
        exact he
    · apply Ends.pure
      exact h.left hstate halive _

theorem freshReplicates_spec {x : Execution F} (h : Kept search x) (hready : Ready search x)
    (hcount : x.aliveCount ≤ 1) :
    Ends (freshReplicates search runner) x (fun _ => Finished search) (Faulted search) := by
  unfold freshReplicates
  apply Ends.bind
  apply Ends.get
  cases hfind : x.states.findIdx? (·.alive) with
  | none =>
    apply Ends.pure
    refine ⟨h, ?_⟩
    intro which state hstate halive
    have hgone := findIdx?_eq_none_iff.mp hfind state (mem_of_getElem? hstate)
    rw [halive] at hgone
    cases hgone
  | some which =>
    obtain ⟨hlt, halive, -⟩ := findIdx?_eq_some_iff_getElem.mp hfind
    have hstate := getElem?_eq_getElem hlt
    have hchosen := h.choose hready hcount hstate halive
    apply Ends.bind
    apply stateAt_spec hstate
    apply Ends.bind
    apply Ends.modify
    apply (freshTrials_spec search.config.finalReplicates hchosen).mono
    · intro _ x' hdone
      rw [Nat.zero_add] at hdone
      refine ⟨hdone.kept, ?_⟩
      intro i state hstate halive
      rw [hdone.only i state hstate halive]
      exact ⟨x.log, hdone⟩
    · intro e x' he
      exact he

theorem kept_start (search : Search) : Kept search (Execution.start search : Execution F) where
  states := length_map _
  observations := by
    intro which state hstate
    rw [Execution.start, getElem?_map] at hstate
    obtain ⟨candidate, -, rfl⟩ := Option.map_eq_some_iff.mp hstate
    rfl
  references := rfl
  trials := rfl
  since := rfl
  lawful := lawful_nil

/-- The start of a search with `k` readings of the reference made. -/
structure Anchoring (search : Search) (k : Nat) (x : Execution F) : Prop where
  kept : Kept search x
  onward : Onward (Execution.start search) x
  states : x.states = (Execution.start search : Execution F).states
  references : x.references.length = k
  since : x.sinceReference = 0

theorem Anchoring.atRound {x : Execution F}
    (h : Anchoring search search.config.referenceReplicates x) :
    AtRound search search.config.baseReplicates x.setAnchor := by
  have hpass : x.pass = 0 := h.onward.pass
  have hrankings : rankings x.log = 0 := h.onward.rankings_eq
  refine ⟨⟨h.kept.states, h.kept.observations, h.kept.references, h.kept.trials, h.kept.since,
    h.kept.lawful⟩, ⟨h.references.ge, lt_of_eq_of_lt h.since search.interleaveEvery_pos⟩, ?_, ?_⟩
  · intro which state hstate _
    have hstart : (Execution.start search : Execution F).states[which]? = some state :=
      h.states ▸ hstate
    rw [Execution.start, getElem?_map] at hstart
    obtain ⟨candidate, -, rfl⟩ := Option.map_eq_some_iff.mp hstart
    exact hpass.symm
  · intro _
    change _ = _ * _ ^ rankings x.log ∧ x.pass ≤ _
    rw [hrankings, hpass]
    exact ⟨(Nat.mul_one _).symm, Nat.zero_le _⟩

theorem anchor_spec :
    Ends (anchor search runner) (Execution.start search)
      (fun _ => AtRound search search.config.baseReplicates) (Faulted search) := by
  have hloop : Ends ((List.range search.config.referenceReplicates).forM fun _ =>
      referenceTrial search runner) (Execution.start search)
      (fun _ => Anchoring search search.config.referenceReplicates) (Faulted search) := by
    apply Ends.forM_range (Anchoring search)
    · exact ⟨kept_start search, .refl _, rfl, rfl, rfl⟩
    · intro k _ x h
      apply (referenceTrial_spec h.kept).mono
      · intro _ x' hreferred
        refine ⟨hreferred.kept, h.onward.trans hreferred.onward, hreferred.states.trans h.states, ?_,
          hreferred.since⟩
        rw [hreferred.references, h.references]
      · intro e x' he
        exact he
  unfold anchor
  apply Ends.bind
  apply hloop.mono
  · intro _ x h
    apply Ends.modify
    exact h.atRound
  · intro e x he
    exact he

theorem execute_spec {fuel : Nat} (hfuel : search.config.candidates.length ≤ fuel) :
    Ends (execute search runner fuel) (Execution.start search)
      (fun _ x => Finished search x ∧ x.sinceReference = 0) (Faulted search) := by
  have hpos : 0 < search.config.candidates.length := length_pos_of_ne_nil search.parameters.1
  unfold execute
  apply Ends.bind
  apply anchor_spec.mono
  · intro _ x hround
    apply Ends.bind
    apply (rounds_spec fuel _ hround ((aliveCount_le hround.kept).trans hfuel)
      (Nat.lt_of_lt_of_le hpos hfuel)).mono
    · intro _ x' ⟨hkept, hready, hcount⟩
      apply Ends.bind
      apply (freshReplicates_spec hkept hready hcount).mono
      · intro _ x'' hfinished
        apply (closeReference_spec hfinished.kept).mono
        · intro _ x₃ hclosed
          exact ⟨hfinished.closed hclosed, hclosed.since⟩
        · intro e x₃ he
          exact he
      · intro e x'' he
        exact he
    · intro e x' he
      exact he
  · intro e x he
    exact he

theorem execute_below (fuel : Nat) :
    Below (execute search runner fuel) (execute search runner (fuel + 1)) := by
  unfold execute
  apply Below.bind (.refl _)
  intro _
  apply Below.bind (rounds_below fuel _)
  intro _
  exact .refl _

end Execute

end LoadForge.Explore
