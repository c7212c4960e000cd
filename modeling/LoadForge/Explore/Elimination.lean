import LoadForge.Explore.Trials

namespace LoadForge.Explore

open Framework List Execution

variable {F : Type}

/-- The candidates still in the search, in configured order. -/
def standing (states : List (State F)) : List Nat := (states.zipIdx.filter (·.1.alive)).map (·.2)

theorem standing_nodup (states : List (State F)) : (standing states).Nodup := by
  have hsub : (standing states).Sublist (states.zipIdx.map Prod.snd) := filter_sublist.map Prod.snd
  rw [zipIdx_map_snd] at hsub
  exact List.Nodup.sublist hsub nodup_range'

variable {states : List (State F)}

theorem mem_standing {which : Nat} :
    which ∈ standing states ↔ ∃ state, states[which]? = some state ∧ state.alive = true := by
  constructor
  · intro h
    obtain ⟨⟨state, i⟩, hmem, rfl⟩ := mem_map.mp h
    obtain ⟨hget, halive⟩ := mem_filter.mp hmem
    exact ⟨state, mem_zipIdx_iff_getElem?.mp hget, halive⟩
  · rintro ⟨state, hget, halive⟩
    apply mem_map.mpr
    exact ⟨(state, which), mem_filter.mpr ⟨mem_zipIdx_iff_getElem?.mpr hget, halive⟩, rfl⟩

theorem length_standing (states : List (State F)) :
    (standing states).length = states.countP (·.alive) := by
  have hmap : states.countP (·.alive) = states.zipIdx.countP (·.1.alive) := by
    conv_lhs => rw [← zipIdx_map_fst 0 states]
    exact countP_map
  rw [hmap, standing, length_map, countP_eq_length_filter]

theorem standing_unique (h : states.countP (·.alive) ≤ 1) {i j : Nat} (hi : i ∈ standing states)
    (hj : j ∈ standing states) : i = j := by
  rw [← length_standing] at h
  match hs : standing states, h with
  | [], _ => simp [hs] at hi
  | [k], _ =>
    rw [hs, mem_singleton] at hi hj
    rw [hi, hj]

theorem countP_set_le {α : Type} {p : α → Bool} {xs : List α} {i : Nat} {a b : α} (h : xs[i]? = some b)
    (hp : p a = true → p b = true) : (xs.set i a).countP p ≤ xs.countP p := by
  obtain ⟨hi, hb⟩ := List.getElem?_eq_some_iff.mp h
  have hpos : p b = true → 0 < xs.countP p := fun hb' =>
    countP_pos_iff.mpr ⟨b, mem_of_getElem? h, hb'⟩
  rw [countP_set hi, hb]
  split_ifs with h₁ h₂ h₂
  · have := hpos h₁
    omega
  · omega
  · exact absurd (hp h₂) h₁
  · omega

/-- Candidates as they were and as a ranking leaves them. -/
structure Narrowed (entering leaving : List (State F)) : Prop where
  length : leaving.length = entering.length
  within : ∀ (which : Nat) (state : State F), leaving[which]? = some state →
    ∃ earlier : State F, entering[which]? = some earlier ∧
      state.observations = earlier.observations ∧ (state.alive = true → earlier.alive = true)

theorem Narrowed.trans {first second third : List (State F)} (h : Narrowed first second)
    (h' : Narrowed second third) : Narrowed first third := by
  refine ⟨h'.length.trans h.length, ?_⟩
  intro which state hstate
  obtain ⟨mid, hmid, hobs, halive⟩ := h'.within which state hstate
  obtain ⟨earlier, hearlier, hobs', halive'⟩ := h.within which mid hmid
  exact ⟨earlier, hearlier, hobs.trans hobs', fun ha => halive' (halive ha)⟩

theorem alive_countRound (state : State F) : (countRound state).alive = state.alive := by
  unfold countRound
  split_ifs <;> rfl

theorem narrowed_countRound (states : List (State F)) :
    Narrowed states (states.map countRound) := by
  refine ⟨length_map _, ?_⟩
  intro which state hstate
  rw [getElem?_map] at hstate
  obtain ⟨earlier, hearlier, rfl⟩ := Option.map_eq_some_iff.mp hstate
  refine ⟨earlier, hearlier, ?_, fun ha => (alive_countRound earlier).symm.trans ha⟩
  unfold countRound
  split_ifs <;> rfl

theorem strikeOut_eq_set {which : Nat} {state : State F} (h : states[which]? = some state) :
    strikeOut states which =
      states.set which { state with alive := false, fate := .kEliminated } := by
  rw [strikeOut, modify_eq_set_getElem?, h]
  rfl

section

variable {which : Nat} (h : which ∈ standing states)
include h

theorem narrowed_strikeOut : Narrowed states (strikeOut states which) := by
  obtain ⟨state, hstate, -⟩ := mem_standing.mp h
  rw [strikeOut_eq_set hstate]
  refine ⟨length_set, ?_⟩
  intro i s hs
  rcases getElem?_set_cases hs with ⟨rfl, rfl⟩ | ⟨-, hs⟩
  · exact ⟨state, hstate, rfl, nofun⟩
  · exact ⟨s, hs, rfl, id⟩

theorem countP_strikeOut :
    (strikeOut states which).countP (·.alive) + 1 = states.countP (·.alive) := by
  obtain ⟨state, hstate, halive⟩ := mem_standing.mp h
  obtain ⟨hlt, hget⟩ := List.getElem?_eq_some_iff.mp hstate
  have hpos : 0 < states.countP (·.alive) :=
    countP_pos_iff.mpr ⟨state, mem_of_getElem? hstate, halive⟩
  rw [strikeOut_eq_set hstate, countP_set hlt, hget, if_pos halive, if_neg Bool.false_ne_true]
  omega

theorem mem_standing_strikeOut {other : Nat} (ho : other ∈ standing states) (hne : other ≠ which) :
    other ∈ standing (strikeOut states which) := by
  obtain ⟨state, hstate, -⟩ := mem_standing.mp h
  obtain ⟨s, hs, halive⟩ := mem_standing.mp ho
  rw [strikeOut_eq_set hstate]
  apply mem_standing.mpr
  refine ⟨s, ?_, halive⟩
  rw [getElem?_set_ne hne.symm]
  exact hs

end

theorem foldl_strikeOut {out : List Nat} (hnodup : out.Nodup)
    (hout : ∀ which ∈ out, which ∈ standing states) :
    Narrowed states (out.foldl strikeOut states) ∧
      (out.foldl strikeOut states).countP (·.alive) + out.length =
        states.countP (·.alive) := by
  induction out generalizing states with
  | nil => exact ⟨⟨rfl, fun which state h => ⟨state, h, rfl, id⟩⟩, rfl⟩
  | cons which out ih =>
    obtain ⟨hnot, hnodup⟩ := nodup_cons.mp hnodup
    have hwhich : which ∈ standing states := hout which (by simp)
    have hrest : ∀ other ∈ out, other ∈ standing (strikeOut states which) := by
      intro other hother
      apply mem_standing_strikeOut hwhich (hout other (by simp [hother]))
      rintro rfl
      exact hnot hother
    obtain ⟨hnarrowed, hcount⟩ := ih hnodup hrest
    have hone := countP_strikeOut hwhich
    refine ⟨(narrowed_strikeOut hwhich).trans hnarrowed, ?_⟩
    rw [foldl_cons, length_cons]
    omega

section Kept

variable {search : Search}

theorem keptOf_eq (n : Nat) : keptOf search n =
    (n + search.config.eliminationFactor - 1) / search.config.eliminationFactor := by
  have hfactor := search.two_le_factor
  unfold keptOf
  generalize search.config.eliminationFactor = factor at hfactor ⊢
  have hdiv := Nat.div_add_mod n factor
  have hmod := Nat.mod_lt n (show 0 < factor by omega)
  symm
  by_cases hzero : n % factor = 0
  · rw [decide_eq_false (not_not.mpr hzero), Bool.toNat_false, Nat.add_zero]
    apply Nat.div_eq_of_lt_le
    · rw [Nat.mul_comm]
      omega
    · rw [Nat.mul_comm, Nat.mul_add]
      omega
  · rw [decide_eq_true hzero, Bool.toNat_true]
    apply Nat.div_eq_of_lt_le
    · rw [Nat.mul_comm, Nat.mul_add]
      omega
    · rw [Nat.mul_comm, Nat.mul_add, Nat.mul_add]
      omega

theorem keptOf_lt {n : Nat} (h : 2 ≤ n) : keptOf search n < n := by
  have hfactor := search.two_le_factor
  rw [keptOf_eq, Nat.div_lt_iff_lt_mul (by omega)]
  have htwo : n * 2 ≤ n * search.config.eliminationFactor := Nat.mul_le_mul_left n hfactor
  have hmore : 2 * search.config.eliminationFactor ≤ n * search.config.eliminationFactor :=
    Nat.mul_le_mul_right _ h
  omega

theorem keptOf_le (n : Nat) : keptOf search n ≤ n := by
  by_cases h : 2 ≤ n
  · exact (keptOf_lt h).le
  · have hfactor := search.two_le_factor
    rw [keptOf_eq, Nat.div_le_iff_le_mul_add_pred (by omega)]
    have hn : n = 0 ∨ n = 1 := by omega
    rcases hn with rfl | rfl <;> omega

end Kept

section Eliminate

variable [Doubles F] (search : Search)

theorem scores_map_snd (x : Execution F) : (x.scores search).map (·.2) = standing x.states := by
  rw [scores, map_map]
  rfl

theorem stableSort_drop (x : Execution F) (keep : Nat) :
    (((stableSort (x.scores search)).drop keep).map (·.2)).Nodup ∧
      ∀ which ∈ ((stableSort (x.scores search)).drop keep).map (·.2),
        which ∈ standing x.states := by
  have hperm : ((stableSort (x.scores search)).map (·.2)).Perm (standing x.states) := by
    rw [← scores_map_snd search x]
    exact (mergeSort_perm _ _).map _
  have hsub : (((stableSort (x.scores search)).drop keep).map (·.2)).Sublist
      ((stableSort (x.scores search)).map (·.2)) := (drop_sublist _ _).map _
  refine ⟨(hperm.nodup_iff.mpr (standing_nodup _)).sublist hsub, ?_⟩
  intro which hwhich
  exact hperm.mem_iff.mp (hsub.subset hwhich)

theorem length_stableSort (x : Execution F) :
    (stableSort (x.scores search)).length = x.aliveCount := by
  have hlength := congrArg List.length (scores_map_snd search x)
  rw [length_map, length_standing] at hlength
  rw [stableSort, length_mergeSort, hlength]
  rfl

/-- A ranking keeps `ceil(n / factor)` of the candidates, with all their observations. -/
theorem eliminate_eq (x : Execution F) :
    ∃ leaving, x.eliminate search =
        { x with states := leaving, log := x.log ++ [.ranked x.states leaving] } ∧
      Narrowed x.states leaving ∧
      leaving.countP (·.alive) = keptOf search x.aliveCount := by
  have hstanding : ∀ which ∈ standing x.states, which ∈ standing (x.states.map countRound) := by
    intro which hwhich
    obtain ⟨state, hstate, hs⟩ := mem_standing.mp hwhich
    apply mem_standing.mpr
    refine ⟨countRound state, ?_, (alive_countRound state).trans hs⟩
    rw [getElem?_map, hstate]
    rfl
  have hcounted : (x.states.map countRound).countP (·.alive) = x.aliveCount := by
    rw [countP_map, aliveCount]
    congr 1
    funext state
    exact alive_countRound state
  obtain ⟨hnodup, hout⟩ := stableSort_drop search x (keptOf search x.aliveCount)
  obtain ⟨hnarrowed, hcount⟩ := foldl_strikeOut hnodup fun which hwhich =>
    hstanding which (hout which hwhich)
  refine ⟨_, ?_, (narrowed_countRound x.states).trans hnarrowed, ?_⟩
  · unfold eliminate
    dsimp only
    rw [length_stableSort]
  · rw [length_map, length_drop, length_stableSort, hcounted] at hcount
    have hle : keptOf search x.aliveCount ≤ x.aliveCount := keptOf_le x.aliveCount
    omega

end Eliminate

/-- Every candidate still in the search has as many observations as passes were made. -/
def Fair (x : Execution F) : Prop :=
  ∀ (which : Nat) (state : State F), x.states[which]? = some state → state.alive = true →
    state.observations.length = x.pass

section Ranking

variable {search : Search} {x : Execution F}

theorem eliminate_ranked (h : Kept search x) (hfair : Fair x)
    (hpass : search.config.baseReplicates * search.config.eliminationFactor ^ rankings x.log < 2 ^ 64 →
      x.pass = search.config.baseReplicates * search.config.eliminationFactor ^ rankings x.log)
    {leaving : List (State F)} (hnarrowed : Narrowed x.states leaving)
    (hcount : leaving.countP (·.alive) = keptOf search x.aliveCount) :
    Ranked search.config x.log x.states leaving where
  counted := h.observations
  fair := by
    intro hsmall which state hstate halive
    rw [← h.observations which state hstate, hfair which state hstate halive, hpass hsmall]
  within := by
    intro which state hstate halive
    obtain ⟨earlier, hearlier, -, hmore⟩ := hnarrowed.within which state hstate
    exact ⟨earlier, hearlier, hmore halive⟩
  kept := by
    rw [hcount, keptOf_eq]
    rfl
  fewer := by
    intro htwo
    rw [hcount]
    exact keptOf_lt htwo

theorem Kept.eliminate [Doubles F] (h : Kept search x) (hzero : x.sinceReference = 0) (hfair : Fair x)
    (hpass : search.config.baseReplicates * search.config.eliminationFactor ^ rankings x.log < 2 ^ 64 →
      x.pass = search.config.baseReplicates * search.config.eliminationFactor ^ rankings x.log) :
    Kept search (x.eliminate search) ∧ Fair (x.eliminate search) ∧
      (x.eliminate search).aliveCount = keptOf search x.aliveCount ∧
      rankings (x.eliminate search).log = rankings x.log + 1 := by
  obtain ⟨leaving, heq, hnarrowed, hcount⟩ := eliminate_eq search x
  rw [heq]
  refine ⟨?_, ?_, hcount, rankings_append _ _⟩
  · constructor
    case states => exact hnarrowed.length.trans h.states
    case observations =>
      intro which state hstate
      obtain ⟨earlier, hearlier, hobs, -⟩ := hnarrowed.within which state hstate
      rw [taken_append, hobs, h.observations which earlier hearlier]
      exact (append_nil _).symm
    case references =>
      rw [readings_append, h.references]
      exact (append_nil _).symm
    case trials =>
      rw [calls_append, h.trials]
      rfl
    case since =>
      rw [sinceReading_snoc, h.since]
      rfl
    case lawful =>
      apply h.lawful.snoc
      exact ⟨h.since ▸ hzero, eliminate_ranked h hfair hpass hnarrowed hcount⟩
  · intro which state hstate halive
    obtain ⟨earlier, hearlier, hobs, hmore⟩ := hnarrowed.within which state hstate
    rw [hobs]
    exact hfair which earlier hearlier (hmore halive)

end Ranking

end LoadForge.Explore
