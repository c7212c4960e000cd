import LoadForge.Explore.Elimination

namespace LoadForge.Explore

open Framework

variable {F : Type}

theorem Onward.rankings_eq {x x' : Execution F} (h : Onward x x') : rankings x'.log = rankings x.log := by
  obtain ⟨tail, hlog, htail⟩ := h.log
  have hnone : rankings tail = 0 := by
    apply List.countP_eq_zero.mpr
    intro e he hranking
    have htrial := htail e he
    cases e with
    | ranked entering leaving => cases htrial
    | _ => cases hranking
  rw [hlog, rankings_append, hnone, Nat.add_zero]

section Passes

variable {search : Search}

/-- A pass from `x` that has come to candidate `next`: those before it have had their trial. -/
structure MidPass (search : Search) (x : Execution F) (next : Nat) (x' : Execution F) : Prop where
  kept : Kept search x'
  ready : Ready search x'
  onward : Onward x x'
  alive : x'.aliveCount ≤ x.aliveCount
  fair : ∀ (which : Nat) (state : State F), x'.states[which]? = some state → state.alive = true →
    state.observations.length = if which < next then x.pass + 1 else x.pass

theorem MidPass.skip {x x' : Execution F} {next : Nat} (h : MidPass search x next x') {state : State F}
    (hstate : x'.states[next]? = some state) (hout : ¬ state.alive = true) :
    MidPass search x (next + 1) x' := by
  refine ⟨h.kept, h.ready, h.onward, h.alive, ?_⟩
  intro which s hs halive
  have hne : which ≠ next := by
    rintro rfl
    rw [hstate] at hs
    cases hs
    exact hout halive
  rw [h.fair which s hs halive]
  split_ifs <;> omega

theorem MidPass.tried {x x' x'' : Execution F} {next : Nat} (h : MidPass search x next x')
    {state : State F} (hstate : x'.states[next]? = some state) (hin : state.alive = true)
    (htried : Tried search next state x' x'') : MidPass search x (next + 1) x'' := by
  obtain ⟨after, hstates, -, hafter⟩ := htried.states
  refine ⟨htried.kept, htried.ready, h.onward.trans htried.onward, ?_, ?_⟩
  · apply le_trans _ h.alive
    unfold Execution.aliveCount
    rw [hstates]
    exact countP_set_le hstate fun _ => hin
  · intro which s hs halive
    rw [hstates] at hs
    rcases getElem?_set_cases hs with ⟨rfl, rfl⟩ | ⟨hne, hs⟩
    · rcases hafter with hgone | ⟨-, hmore⟩
      · rw [halive] at hgone
        cases hgone
      · rw [hmore, h.fair which state hstate hin, if_neg (lt_irrefl which), if_pos (Nat.lt_succ_self which)]
    · rw [h.fair which s hs halive]
      split_ifs <;> omega

structure Passed (search : Search) (x : Execution F) (count : Nat) (x' : Execution F) : Prop where
  kept : Kept search x'
  ready : Ready search x'
  fair : Fair x'
  alive : x'.aliveCount ≤ x.aliveCount
  rankings : rankings x'.log = rankings x.log
  pass : x'.pass = x.pass + count

theorem MidPass.passed {x x' : Execution F} (h : MidPass search x search.config.candidates.length x') :
    Passed search x 1 { x' with pass := x'.pass + 1 } where
  kept := ⟨h.kept.states, h.kept.observations, h.kept.references, h.kept.trials, h.kept.since,
    h.kept.lawful⟩
  ready := ⟨h.ready.anchored, h.ready.due⟩
  fair := by
    intro which state hstate halive
    have hlt : which < search.config.candidates.length := by
      rw [← h.kept.states]
      exact (List.getElem?_eq_some_iff.mp hstate).1
    rw [h.fair which state hstate halive, if_pos hlt, h.onward.pass]
  alive := h.alive
  rankings := h.onward.rankings_eq
  pass := by rw [h.onward.pass]

theorem Passed.trans {x x' x'' : Execution F} {m n : Nat} (h : Passed search x m x')
    (h' : Passed search x' n x'') : Passed search x (m + n) x'' where
  kept := h'.kept
  ready := h'.ready
  fair := h'.fair
  alive := h'.alive.trans h.alive
  rankings := h'.rankings.trans h.rankings
  pass := by rw [h'.pass, h.pass, Nat.add_assoc]

variable [Doubles F] {runner : TrialRunner F}

theorem onePass_spec {x : Execution F} (h : Kept search x) (hready : Ready search x) (hfair : Fair x) :
    Ends (onePass search runner) x (fun _ => MidPass search x search.config.candidates.length)
      (Faulted search) := by
  unfold onePass
  apply Ends.bind
  apply Ends.get
  rw [h.states]
  apply Ends.forM_range (MidPass search x)
  · refine ⟨h, hready, .refl x, le_refl _, ?_⟩
    intro which state hstate halive
    rw [if_neg (Nat.not_lt_zero which)]
    exact hfair which state hstate halive
  · intro next hnext x' hmid
    have hlt : next < x'.states.length := by
      rw [hmid.kept.states]
      exact hnext
    have hstate := List.getElem?_eq_getElem hlt
    apply Ends.bind
    apply stateAt_spec hstate
    split_ifs with halive
    · apply (candidateTrial_spec hmid.kept hmid.ready hstate).mono
      · intro _ x'' htried
        exact hmid.tried hstate halive htried
      · intro e x'' he
        exact he
    · apply Ends.pure
      exact hmid.skip hstate halive

theorem passesLeft_spec (left : Nat) {x : Execution F} (h : Kept search x) (hready : Ready search x)
    (hfair : Fair x) :
    Ends (passesLeft search runner left) x (fun _ => Passed search x left) (Faulted search) := by
  induction left generalizing x with
  | zero =>
    apply Ends.pure
    exact ⟨h, hready, hfair, le_refl _, rfl, rfl⟩
  | succ left ih =>
    unfold passesLeft
    apply Ends.bind
    apply (onePass_spec h hready hfair).mono
    · intro _ x' hmid
      have hone := hmid.passed
      apply Ends.bind
      apply Ends.modify
      apply (ih hone.kept hone.ready hone.fair).mono
      · intro _ x'' hrest
        rw [Nat.add_comm]
        exact hone.trans hrest
      · intro e x'' he
        exact he
    · intro e x' he
      exact he

end Passes

/-- The search at the start of a round: the target is what the design says, while that fits in a
word. -/
structure AtRound (search : Search) (target : Nat) (x : Execution F) : Prop where
  kept : Kept search x
  ready : Ready search x
  fair : Fair x
  target : search.config.baseReplicates * search.config.eliminationFactor ^ rankings x.log < 2 ^ 64 →
    target = search.config.baseReplicates * search.config.eliminationFactor ^ rankings x.log ∧
      x.pass ≤ target

section Rounds

variable {search : Search}

theorem AtRound.target_next {target : Nat} {x : Execution F} (h : AtRound search target x)
    (hsmall : search.config.baseReplicates * search.config.eliminationFactor ^ (rankings x.log + 1) <
      2 ^ 64) :
    target * search.config.eliminationFactor % 2 ^ 64 =
        search.config.baseReplicates * search.config.eliminationFactor ^ (rankings x.log + 1) ∧
      x.pass + (target - x.pass) ≤ target * search.config.eliminationFactor % 2 ^ 64 := by
  have hfactor := search.two_le_factor
  have hstep : search.config.baseReplicates * search.config.eliminationFactor ^ (rankings x.log + 1) =
      search.config.baseReplicates * search.config.eliminationFactor ^ rankings x.log *
        search.config.eliminationFactor := by
    rw [Nat.pow_succ, Nat.mul_assoc]
  rw [hstep] at hsmall ⊢
  have hgrows : search.config.baseReplicates * search.config.eliminationFactor ^ rankings x.log ≤
      search.config.baseReplicates * search.config.eliminationFactor ^ rankings x.log *
        search.config.eliminationFactor := Nat.le_mul_of_pos_right _ (by omega)
  obtain ⟨htarget, hle⟩ := h.target (lt_of_le_of_lt hgrows hsmall)
  rw [htarget, Nat.mod_eq_of_lt hsmall]
  refine ⟨rfl, ?_⟩
  omega

variable [Doubles F] {runner : TrialRunner F}

/-- One round: its passes, the closing reference trial and the ranking. -/
theorem AtRound.next {target : Nat} {x x₁ x₂ : Execution F} (h : AtRound search target x)
    (hmany : 1 < x.aliveCount) (hpassed : Passed search x (target - x.pass) x₁)
    (hclosed : Closed search x₁ x₂) :
    AtRound search (target * search.config.eliminationFactor % 2 ^ 64)
        { x₂.eliminate search with rounds := (x₂.eliminate search).rounds + 1 } ∧
      (x₂.eliminate search).aliveCount < x.aliveCount := by
  have hcount : x₂.aliveCount = x₁.aliveCount := by
    unfold Execution.aliveCount
    rw [hclosed.states]
  have hrankings : rankings x₂.log = rankings x.log :=
    hclosed.onward.rankings_eq.trans hpassed.rankings
  have hpass : x₂.pass = x.pass + (target - x.pass) := hclosed.onward.pass.trans hpassed.pass
  have hfair : Fair x₂ := by
    intro which state hstate halive
    rw [hclosed.onward.pass]
    exact hpassed.fair which state (hclosed.states ▸ hstate) halive
  have hreached : search.config.baseReplicates *
        search.config.eliminationFactor ^ rankings x₂.log < 2 ^ 64 →
      x₂.pass = search.config.baseReplicates * search.config.eliminationFactor ^ rankings x₂.log := by
    intro hsmall
    rw [hrankings] at hsmall ⊢
    obtain ⟨htarget, hle⟩ := h.target hsmall
    rw [hpass, ← htarget]
    omega
  obtain ⟨hkept, hfair', hcount', hrankings'⟩ := hclosed.kept.eliminate hclosed.since hfair hreached
  obtain ⟨leaving, heliminate, -, -⟩ := eliminate_eq search x₂
  refine ⟨⟨⟨hkept.states, hkept.observations, hkept.references, hkept.trials, hkept.since,
    hkept.lawful⟩, ⟨?_, ?_⟩, hfair', ?_⟩, ?_⟩
  · rw [heliminate]
    exact le_trans hpassed.ready.anchored hclosed.references
  · rw [heliminate]
    exact lt_of_eq_of_lt hclosed.since search.interleaveEvery_pos
  · intro hsmall
    have heq : rankings (x₂.eliminate search).log = rankings x.log + 1 := by
      rw [hrankings', hrankings]
    have hpass' : (x₂.eliminate search).pass = x.pass + (target - x.pass) := by
      rw [heliminate]
      exact hpass
    dsimp only at hsmall ⊢
    rw [heq] at hsmall ⊢
    rw [hpass']
    exact h.target_next hsmall
  · rw [hcount', hcount]
    have hle := hpassed.alive
    by_cases htwo : 2 ≤ x₁.aliveCount
    · exact lt_of_lt_of_le (keptOf_lt htwo) hle
    · have hkeep : Execution.keptOf search x₁.aliveCount ≤ x₁.aliveCount := keptOf_le _
      omega

/-- The rounds end with at most one candidate in the search, whatever the runner does. -/
theorem rounds_spec (fuel target : Nat) {x : Execution F} (h : AtRound search target x)
    (hfuel : x.aliveCount ≤ fuel) (hpos : 1 ≤ fuel) :
    Ends (rounds search runner fuel target) x
      (fun _ x' => Kept search x' ∧ Ready search x' ∧ x'.aliveCount ≤ 1) (Faulted search) := by
  induction fuel generalizing x target with
  | zero => omega
  | succ fuel ih =>
    unfold rounds
    apply Ends.bind
    apply Ends.get
    split_ifs with hmany
    · apply Ends.bind
      apply Ends.bind
      apply Ends.get
      apply (passesLeft_spec _ h.kept h.ready h.fair).mono
      · intro _ x₁ hpassed
        apply Ends.bind
        apply (closeReference_spec hpassed.kept).mono
        · intro _ x₂ hclosed
          obtain ⟨hnext, hfewer⟩ := h.next hmany hpassed hclosed
          apply Ends.bind
          apply Ends.modify
          apply Ends.bind
          apply Ends.modify
          apply ih _ hnext
          · exact Nat.le_of_lt_succ (lt_of_lt_of_le hfewer hfuel)
          · omega
        · intro e x₂ he
          exact he
      · intro e x₁ he
        exact he
    · apply Ends.pure
      exact ⟨h.kept, h.ready, Nat.le_of_not_lt hmany⟩

theorem rounds_below (fuel target : Nat) :
    Below (rounds search runner fuel target) (rounds search runner (fuel + 1) target) := by
  induction fuel generalizing target with
  | zero => exact .stuck _
  | succ fuel ih =>
    rw [rounds, rounds]
    apply Below.bind (.refl _)
    intro x
    apply Below.ite
    · apply Below.bind (.refl _)
      intro _
      apply Below.bind (.refl _)
      intro _
      apply Below.bind (.refl _)
      intro _
      apply Below.bind (.refl _)
      intro _
      exact ih _
    · exact .refl _

end Rounds

end LoadForge.Explore
