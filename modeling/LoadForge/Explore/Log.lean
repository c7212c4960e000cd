import LoadForge.Explore.Search
import LoadForge.Framework.History

namespace LoadForge.Explore

open Framework List

variable {F : Type}

namespace Event

def reading : Event F → Option (ReferencePoint F)
  | .reference point => some point
  | _ => none

def observationOf (which : Nat) : Event F → Option (Observation F)
  | .scored of observation => if of = which then some observation else none
  | _ => none

def isScored : Event F → Bool
  | .scored _ _ => true
  | _ => false

def isRanking : Event F → Bool
  | .ranked _ _ => true
  | _ => false

/-- An event of a trial, and no decision of the search. -/
def isTrial : Event F → Bool
  | .ranked _ _ | .chosen _ => false
  | _ => true

end Event

def readings (log : List (Event F)) : List (ReferencePoint F) := log.filterMap (·.reading)

def taken (which : Nat) (log : List (Event F)) : List (Observation F) :=
  log.filterMap (·.observationOf which)

def scoredTrials (log : List (Event F)) : Nat := log.countP (·.isScored)

def rankings (log : List (Event F)) : Nat := log.countP (·.isRanking)

def sinceStep (n : Nat) : Event F → Nat
  | .scored _ _ => n + 1
  | .reference _ => 0
  | _ => n

/-- How many candidate trials were scored since the last reading of the reference. -/
def sinceReading (log : List (Event F)) : Nat := log.foldl sinceStep 0

section Snoc

variable (log later : List (Event F)) (e : Event F) (which : Nat)

@[simp] theorem calls_append : calls (log ++ later) = calls log + calls later := countP_append

@[simp] theorem readings_append : readings (log ++ later) = readings log ++ readings later :=
  filterMap_append

@[simp] theorem taken_append : taken which (log ++ later) = taken which log ++ taken which later :=
  filterMap_append

@[simp] theorem scoredTrials_append :
    scoredTrials (log ++ later) = scoredTrials log + scoredTrials later := countP_append

@[simp] theorem rankings_append : rankings (log ++ later) = rankings log + rankings later :=
  countP_append

@[simp] theorem sinceReading_snoc : sinceReading (log ++ [e]) = sinceStep (sinceReading log) e := by
  rw [sinceReading, foldl_append]
  rfl

end Snoc

/-- A ranking after the events of `before`, of the candidates as they were and as it left them. -/
structure Ranked (config : SearchConfig) (before : List (Event F)) (entering leaving : List (State F)) :
    Prop where
  counted : ∀ (which : Nat) (state : State F), entering[which]? = some state → state.observations = taken which before
  fair : config.baseReplicates * config.eliminationFactor ^ rankings before < 2 ^ 64 →
    ∀ (which : Nat) (state : State F), entering[which]? = some state → state.alive = true →
      (taken which before).length = config.baseReplicates * config.eliminationFactor ^ rankings before
  within : ∀ (which : Nat) (state : State F), leaving[which]? = some state → state.alive = true →
    ∃ earlier : State F, entering[which]? = some earlier ∧ earlier.alive = true
  kept : leaving.countP (·.alive) =
    (entering.countP (·.alive) + config.eliminationFactor - 1) / config.eliminationFactor
  fewer : 2 ≤ entering.countP (·.alive) → leaving.countP (·.alive) < entering.countP (·.alive)

def Allowed (config : SearchConfig) (before : List (Event F)) : Event F → Prop
  | .scored _ _ =>
    config.referenceReplicates ≤ (readings before).length ∧ sinceReading before < config.interleaveEvery
  | .ranked entering leaving => sinceReading before = 0 ∧ Ranked config before entering leaving
  | _ => True

section Since

variable {config : SearchConfig} {log : List (Event F)}

theorem sinceReading_le (h : Lawful (Allowed config) log) : sinceReading log ≤ config.interleaveEvery := by
  induction log using reverseRecOn with
  | nil => exact Nat.zero_le _
  | append_singleton log e ih =>
    have hle := ih h.of_append
    rw [sinceReading_snoc]
    cases e with
    | scored which observation =>
      have hallowed := h log (.scored which observation) [] rfl
      exact hallowed.2
    | reference point => exact Nat.zero_le _
    | _ => exact hle

theorem sinceReading_append {later : List (Event F)} (h : readings later = []) :
    sinceReading (log ++ later) = sinceReading log + scoredTrials later := by
  induction later using reverseRecOn with
  | nil => rw [append_nil]; rfl
  | append_singleton later e ih =>
    rw [readings_append, append_eq_nil_iff] at h
    rw [← append_assoc, sinceReading_snoc, ih h.1, scoredTrials_append]
    cases e with
    | reference point => exact absurd h.2 (by simp [readings, Event.reading])
    | _ => rfl

theorem scoredTrials_lt (h : Lawful (Allowed config) log) {before mid after : List (Event F)}
    {which : Nat} {observation : Observation F}
    (hsplit : log = before ++ .scored which observation :: (mid ++ after)) (hmid : readings mid = []) :
    scoredTrials mid < config.interleaveEvery := by
  have heq : log = (before ++ [.scored which observation] ++ mid) ++ after := by
    simp [hsplit]
  rw [heq] at h
  have hle := sinceReading_le h.of_append
  rw [sinceReading_append hmid, sinceReading_snoc] at hle
  simp only [sinceStep] at hle
  omega

theorem readings_ne_nil {before after : List (Event F)} {which : Nat} {observation : Observation F}
    (hzero : sinceReading (before ++ .scored which observation :: after) = 0) : readings after ≠ [] := by
  intro hnil
  have heq : before ++ .scored which observation :: after =
      (before ++ [.scored which observation]) ++ after := by
    simp
  rw [heq, sinceReading_append hnil, sinceReading_snoc] at hzero
  simp only [sinceStep] at hzero
  omega

theorem exists_first_reading (h : readings log ≠ []) :
    ∃ mid point after, log = mid ++ .reference point :: after ∧ readings mid = [] := by
  induction log with
  | nil => exact absurd rfl h
  | cons e log ih =>
    cases he : e.reading with
    | some point =>
      cases e with
      | reference p => exact ⟨[], p, log, rfl, rfl⟩
      | _ => cases he
    | none =>
      have hrest : readings (e :: log) = readings log := filterMap_cons_none he
      obtain ⟨mid, point, after, rfl, hmid⟩ := ih (hrest ▸ h)
      exact ⟨e :: mid, point, after, rfl, (filterMap_cons_none he).trans hmid⟩

end Since

end LoadForge.Explore
