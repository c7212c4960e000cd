import Mathlib.Data.Nat.ModEq
import LoadForge.Framework.Blocks
import LoadForge.Workloads.MixedRules

namespace LoadForge.Mixed

open Framework Worker Workloads List Option

/-- Words counted up and reduced agree exactly when they wrap between and are as far apart as the
wrap is off. -/
theorem wrapped_mod_eq_iff {m n d i j : Nat} (hd : d < m) (hij : i < j) (hj : j < m)
    (hn : j - i < n) :
    (d + i) % m % n = (d + j) % m % n ↔ d + i < m ∧ m ≤ d + j ∧ j - i = m % n := by
  have hnear (x : Nat) : x % n ≠ (x + (j - i)) % n := by
    intro hsame
    have hdvd := (Nat.modEq_iff_dvd' (Nat.le_add_right x (j - i))).mp hsame
    rw [Nat.add_sub_cancel_left] at hdvd
    exact absurd (Nat.le_of_dvd (by omega) hdvd) (by omega)
  by_cases hlast : d + j < m
  · rw [Nat.mod_eq_of_lt (by omega : d + i < m), Nat.mod_eq_of_lt hlast]
    have hne := hnear (d + i)
    rw [show d + i + (j - i) = d + j by omega] at hne
    exact ⟨fun hsame => absurd hsame hne, fun h => absurd h.2.1 (by omega)⟩
  have hlater : (d + j) % m = d + j - m := by
    rw [Nat.mod_eq_sub_mod (by omega), Nat.mod_eq_of_lt (by omega)]
  by_cases hfirst : d + i < m
  · rw [hlater, Nat.mod_eq_of_lt hfirst]
    constructor
    · intro hsame
      have hdvd := (Nat.modEq_iff_dvd' (by omega : d + j - m ≤ d + i)).mp hsame.symm
      have hoff : d + i - (d + j - m) = m - (j - i) := by omega
      rw [hoff] at hdvd
      refine ⟨hfirst, by omega, ?_⟩
      have hmod := (Nat.modEq_iff_dvd' (by omega : j - i ≤ m)).mpr hdvd
      rwa [Nat.ModEq, Nat.mod_eq_of_lt hn] at hmod
    · intro h
      have hdvd : n ∣ m - (j - i) := h.2.2 ▸ Nat.dvd_sub_mod m
      exact ((Nat.modEq_iff_dvd' (by omega : d + j - m ≤ d + i)).mpr
        (by rwa [show d + i - (d + j - m) = m - (j - i) by omega])).symm
  · have hearlier : (d + i) % m = d + i - m := by
      rw [Nat.mod_eq_sub_mod (by omega), Nat.mod_eq_of_lt (by omega)]
    have hne := hnear (d + i - m)
    rw [show d + i - m + (j - i) = d + j - m by omega] at hne
    rw [hlater, hearlier]
    exact ⟨fun hsame => absurd hsame hne, fun h => absurd h.1 hfirst⟩

section Choices

/-- Where the entry of a worker in a mix is among the usable ones. -/
def choiceAt (usable : List RosterEntry) (seed : UInt64) (rotation slot : Nat) : Nat :=
  (draw seed (UInt64.ofNat rotation) 0 .kPick + UInt64.ofNat slot).toNat % usable.length

def Given (usable : List RosterEntry) (options : MixedOptions) (rotation slot : Nat)
    (change : Switch) : Prop :=
  ∃ entry, usable[choiceAt usable options.seed rotation slot]? = some entry ∧
    change = assignment entry options rotation slot

/-- The start and the steps of the mixed kind give each worker the entry that was chosen for it. -/
structure Mixes (usable : List RosterEntry) (options : MixedOptions) (schedule : Schedule) :
    Prop where
  start : List.Forall₂ (fun slot start => ∃ change, Given usable options 0 slot change ∧
    start = ⟨change.workload, change.footprintBytes⟩) (List.range options.workers) schedule.start
  steps : ∀ i step, schedule.steps[i]? = some step → kindAt options (1 + i) = some .kMixed →
    List.Forall₂ (fun slot each => ∃ change, Given usable options (1 + i) slot change ∧
      each = ⟨slot, [.switch change]⟩) (List.range options.workers) step.workers

def IsMixed (options : MixedOptions) (schedule : Schedule) (rotation : Nat) : Prop :=
  rotation = 0 ∨ rotation ≤ schedule.steps.length ∧ kindAt options rotation = some .kMixed

def Differ (usable : List RosterEntry) (options : MixedOptions) (rotation : Nat) : Prop :=
  ∀ i j, i < j → j < options.workers → j - i < usable.length →
    choiceAt usable options.seed rotation i ≠ choiceAt usable options.seed rotation j

/-- Workers less than a roster apart differ, and a roster of them in a row has each entry once. -/
def Apart (usable : List RosterEntry) (options : MixedOptions) (rotation : Nat) : Prop :=
  Differ usable options rotation ∧ ∀ first, first + usable.length ≤ options.workers →
    ((List.range' first usable.length).map (choiceAt usable options.seed rotation)).Perm
      (List.range usable.length)

/-- The drawn start and the last slot add up to a word, or where the sum wraps it is not seen. -/
def Unwrapped (usable : List RosterEntry) (options : MixedOptions) (rotation : Nat) : Prop :=
  (draw options.seed (UInt64.ofNat rotation) 0 .kPick).toNat + options.workers ≤ 2 ^ 64 ∨
    2 ^ 64 % usable.length = 0 ∨ options.workers ≤ 2 ^ 64 % usable.length

variable {usable : List RosterEntry} {options : MixedOptions}

theorem choiceAt_eq_iff (usable : List RosterEntry) (seed : UInt64) (rotation : Nat) {i j : Nat}
    (hij : i < j) (hj : j < 2 ^ 64) (hn : j - i < usable.length) :
    choiceAt usable seed rotation i = choiceAt usable seed rotation j ↔
      (draw seed (UInt64.ofNat rotation) 0 .kPick).toNat + i < 2 ^ 64 ∧
      2 ^ 64 ≤ (draw seed (UInt64.ofNat rotation) 0 .kPick).toNat + j ∧
      j - i = 2 ^ 64 % usable.length := by
  have hslot {slot : Nat} (h : slot < 2 ^ 64) : (UInt64.ofNat slot).toNat = slot :=
    UInt64.toNat_ofNat_of_lt h
  rw [choiceAt, choiceAt, UInt64.toNat_add, UInt64.toNat_add, hslot hj, hslot (Nat.lt_trans hij hj)]
  exact wrapped_mod_eq_iff (UInt64.toNat_lt _) hij hj hn

theorem perm_of_differ (husable : usable ≠ []) {rotation : Nat}
    (h : Differ usable options rotation) {first : Nat}
    (hfirst : first + usable.length ≤ options.workers) :
    ((List.range' first usable.length).map (choiceAt usable options.seed rotation)).Perm
      (range usable.length) := by
  apply perm_range_of_nodup
  · rw [nodup_iff_pairwise_ne, pairwise_map]
    apply (pairwise_lt_range' 1).imp_of_mem
    intro i j hi hj hlt
    have hlow := mem_range'_1.mp hi
    have hhigh := mem_range'_1.mp hj
    exact h i j hlt (by omega) (by omega)
  · intro choice hchoice
    obtain ⟨slot, -, rfl⟩ := mem_map.mp hchoice
    exact Nat.mod_lt _ (length_pos_iff.mpr husable)
  · simp

theorem apart_iff (husable : usable ≠ []) (hworkers : options.workers ≤ 2 ^ 64) (rotation : Nat) :
    Apart usable options rotation ↔ Unwrapped usable options rotation := by
  have hpos := length_pos_iff.mpr husable
  have hd := (draw options.seed (UInt64.ofNat rotation) 0 .kPick).toNat_lt
  have hoff := Nat.mod_lt (2 ^ 64) hpos
  unfold Unwrapped
  constructor
  · intro h
    by_contra hwraps
    generalize hr : 2 ^ 64 % usable.length = off at hwraps hoff
    generalize hdraw : (draw options.seed (UInt64.ofNat rotation) 0 .kPick).toNat = d at hwraps hd
    have hsame := (choiceAt_eq_iff usable options.seed rotation
      (by omega : 2 ^ 64 - d - off < 2 ^ 64 - d - off + off) (by omega) (by omega)).mpr
      ⟨by omega, by omega, by omega⟩
    exact h.1 _ _ (by omega) (by omega) (by omega) hsame
  · intro h
    have hdiffer : Differ usable options rotation := by
      intro i j hij hj hn hsame
      obtain ⟨hlow, hhigh, hwrap⟩ := choiceAt_eq_iff usable _ rotation hij (by omega) hn |>.mp hsame
      omega
    exact ⟨hdiffer, fun first hfirst => perm_of_differ husable hdiffer hfirst⟩

end Choices

section Schedules

variable {usable : List RosterEntry} {options : MixedOptions} {schedule : Schedule}

theorem given_of_pick {rotation slot : Nat} {change : Switch}
    (h : (pick .kMixed usable options.seed rotation slot).map
      (fun entry => assignment entry options rotation slot) = some change) :
    Given usable options rotation slot change := by
  obtain ⟨entry, hentry, rfl⟩ := map_eq_some_iff.mp h
  exact ⟨entry, hentry, rfl⟩

theorem stepOf_given {rotation : Nat} {current current' : String} {step : Step}
    (h : stepOf rotation usable options current = some (step, current'))
    (hkind : kindAt options rotation = some .kMixed) :
    List.Forall₂ (fun slot each => ∃ change, Given usable options rotation slot change ∧
      each = ⟨slot, [.switch change]⟩) (range options.workers) step.workers := by
  have hmoves : movesAt options rotation = false := by
    by_contra hmoves
    rw [kindAt, if_pos (by simpa using hmoves)] at hkind
    cases hkind
  simp only [stepOf, hkind, bind_eq_bind, bind_some, bind_eq_some_iff] at h
  obtain ⟨atNs, -, workers, hworkers, hstep⟩ := h
  cases hstep
  apply (mapM_eq_some.mp hworkers).imp
  intro slot each heach
  obtain ⟨command, hcommand, rfl⟩ := map_eq_some_iff.mp heach
  rw [commandOf, hmoves, if_neg Bool.false_ne_true] at hcommand
  obtain ⟨entry, hentry, rfl⟩ := map_eq_some_iff.mp hcommand
  exact ⟨_, ⟨entry, hentry, rfl⟩, rfl⟩

theorem scheduleOf_mixes (h : scheduleOf usable options = some schedule) :
    Mixes usable options schedule := by
  simp only [scheduleOf, bind_eq_bind, bind_eq_some_iff] at h
  obtain ⟨first, hfirst, rotations, -, ⟨steps, current⟩, hsteps, hschedule⟩ := h
  cases hschedule
  constructor
  · rw [List.forall₂_map_right_iff]
    apply (mapM_eq_some.mp hfirst).imp
    intro slot change hchange
    exact ⟨change, given_of_pick hchange, rfl⟩
  · intro i step hstep hkind
    have hround (s : List Step × String) (rotation : Nat) (s' : List Step × String)
        (hnext : nextStep usable options s rotation = some s') :
        ∃ step, s'.1 = s.1 ++ [step] ∧
          ∃ current', stepOf rotation usable options s.2 = some (step, current') := by
      simp only [nextStep, bind_eq_bind, bind_eq_some_iff] at hnext
      obtain ⟨⟨step, current'⟩, hstep, hsame⟩ := hnext
      cases hsame
      exact ⟨step, rfl, current', hstep⟩
    obtain ⟨bs, hbs, hall⟩ := foldlM_collects Prod.fst
      (fun rotation step => ∃ current current',
        stepOf rotation usable options current = some (step, current'))
      (fun s rotation s' hnext => by
        obtain ⟨step, hmade, current', hstep⟩ := hround s rotation s' hnext
        exact ⟨step, hmade, s.2, current', hstep⟩) hsteps
    have hsame : steps = bs := hbs
    rw [hsame] at hstep
    obtain ⟨rotation, hrotation, current, current', hmade⟩ := forall₂_at hall hstep
    obtain ⟨hlt, hrotation⟩ := List.getElem?_eq_some_iff.mp hrotation
    rw [getElem_range', Nat.one_mul] at hrotation
    subst hrotation
    exact stepOf_given hmade hkind

end Schedules

/-- Neighbours in a mix differ exactly when no sum of a draw and a slot wraps to where it is seen.
-/
theorem neighbours_differ_iff (roster : List RosterEntry) (options : MixedOptions)
    (schedule : Schedule) (h : makeMixed roster options = some (.ok schedule)) :
    Mixes (usableOf roster options) options schedule ∧
      ((∀ rotation, IsMixed options schedule rotation →
          Apart (usableOf roster options) options rotation) ↔
        ∀ rotation, IsMixed options schedule rotation →
          Unwrapped (usableOf roster options) options rotation) := by
  obtain ⟨refused, hrefused⟩ | ⟨hadmitted, husable, hmake⟩ := makeMixed_cases roster options
  · rw [h] at hrefused
    cases hrefused
  rw [h] at hmake
  obtain ⟨made, hmade, hsame⟩ := map_eq_some_iff.mp hmake.symm
  cases hsame
  have hworkers : options.workers ≤ 2 ^ 64 := by
    have hcommands := hadmitted.commands
    rw [Nat.mul_succ, kMaxCommands] at hcommands
    omega
  refine ⟨scheduleOf_mixes hmade, ?_⟩
  apply forall_congr'
  intro rotation
  apply imp_congr_right
  intro _
  exact apart_iff husable hworkers rotation

def threeRoster : List RosterEntry := [⟨"fft", 4096⟩, ⟨"sort", 4096⟩, ⟨"graph", 4096⟩]

def pairOptions (seed : UInt64) : MixedOptions :=
  { workers := 2, seed, durationNs := 1, rotationNs := 1, footprintBytes := 4096 }

theorem pair_of_neighbours_differ :
    ∃ schedule, makeMixed threeRoster (pairOptions 1) = some (.ok schedule) ∧
      ∀ rotation, IsMixed (pairOptions 1) schedule rotation →
        Apart (usableOf threeRoster (pairOptions 1)) (pairOptions 1) rotation := by
  have hsteps : (makeMixed threeRoster (pairOptions 1)).map
      (Except.map fun schedule => schedule.steps.length) = some (.ok 0) := by decide +kernel
  obtain ⟨answer, hanswer, hlength⟩ := map_eq_some_iff.mp hsteps
  cases answer with
  | error refused => cases hlength
  | ok schedule =>
    refine ⟨schedule, hanswer, (neighbours_differ_iff _ _ schedule hanswer).2.mpr ?_⟩
    intro rotation hrotation
    have hfirst : rotation = 0 := by
      have hnone : schedule.steps.length = 0 := Except.ok.inj hlength
      rcases hrotation with hzero | ⟨hle, -⟩
      · exact hzero
      · omega
    subst hfirst
    exact Or.inl (by decide +kernel)

/-- A seed whose first draw is the last word: the second worker's sum wraps to the first entry. -/
theorem wrapped_draw_repeats_an_entry :
    (makeMixed threeRoster (pairOptions 0x7FD888020D93AAE8)).map
        (Except.map fun schedule => schedule.start.map Start.workload) =
      some (.ok ["fft", "fft"]) := by
  decide +kernel

end LoadForge.Mixed
