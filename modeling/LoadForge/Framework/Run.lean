import Mathlib.Data.List.Basic
import Mathlib.Tactic.Ring

namespace LoadForge.Framework

/-- The state a machine is in after a list of events. -/
def run {S E : Type} (step : S → E → S) (s : S) (es : List E) : S := es.foldl step s

/-- Every event of a run meets a condition in the state it finds. -/
def Along {S E : Type} (step : S → E → S) (P : S → E → Prop) : S → List E → Prop
  | _, [] => True
  | s, e :: es => P s e ∧ Along step P (step s e) es

variable {S E : Type}

section

variable (step : S → E → S)

@[simp] theorem run_nil (s : S) : run step s [] = s := rfl

@[simp] theorem run_cons (s : S) (e : E) (es : List E) :
    run step s (e :: es) = run step (step s e) es := rfl

theorem run_append (s : S) (es fs : List E) :
    run step s (es ++ fs) = run step (run step s es) fs := by
  simp [run, List.foldl_append]

theorem run_inv {step : S → E → S} (Inv : S → Prop) (hstep : ∀ s e, Inv s → Inv (step s e)) (s : S)
    (es : List E) (hs : Inv s) :
    Inv (run step s es) := by
  induction es generalizing s with
  | nil => exact hs
  | cons e es ih => exact ih (step s e) (hstep s e hs)

/-- What every step that meets the condition preserves, a run of such steps preserves. -/
theorem run_inv_of_along {step : S → E → S} {P : S → E → Prop} (Inv : S → Prop)
    (hstep : ∀ s e, Inv s → P s e → Inv (step s e)) (s : S) (es : List E) (hs : Inv s)
    (hp : Along step P s es) : Inv (run step s es) := by
  induction es generalizing s with
  | nil => exact hs
  | cons e es ih => exact ih (step s e) (hstep s e hs hp.1) hp.2

/-- An invariant that may speak of the events still to come holds, at the end, of none. -/
theorem run_inv_ahead (Inv : S → List E → Prop)
    (hstep : ∀ s e es, Inv s (e :: es) → Inv (step s e) es) (s : S) (es : List E) (hs : Inv s es) :
    Inv (run step s es) [] := by
  induction es generalizing s with
  | nil => exact hs
  | cons e es ih => exact ih (step s e) (hstep s e es hs)

end

section

variable {step : S → E → S} {P Q : S → E → Prop} (Inv : S → Prop)
  (hstep : ∀ s e, Inv s → P s e → Inv (step s e))
include hstep

/-- What a condition gives in every state of an invariant it keeps, it gives along a run. -/
theorem along_of_inv (hpq : ∀ s e, Inv s → P s e → Q s e)
    (s : S) (es : List E) (hs : Inv s) (hp : Along step P s es) : Along step Q s es := by
  induction es generalizing s with
  | nil => trivial
  | cons e es ih => exact ⟨hpq s e hs hp.1, ih (step s e) (hstep s e hs hp.1) hp.2⟩

/-- Conditions that agree wherever the invariant holds agree along a run. -/
theorem along_congr (hpq : ∀ s e, Inv s → (P s e ↔ Q s e))
    (s : S) (es : List E) (hs : Inv s) : Along step P s es ↔ Along step Q s es := by
  induction es generalizing s with
  | nil => exact Iff.rfl
  | cons e es ih =>
    simp only [Along]
    rw [← hpq s e hs]
    exact and_congr_right fun hp => ih (step s e) (hstep s e hs hp)

end

instance {S E : Type} {step : S → E → S} {P : S → E → Prop} [∀ s e, Decidable (P s e)] (s : S)
    (es : List E) : Decidable (Along step P s es) := by
  induction es generalizing s with
  | nil => exact isTrue trivial
  | cons e es ih => exact @instDecidableAnd _ _ _ (ih _)

end LoadForge.Framework
