import Mathlib.Tactic.Ring

namespace LoadForge.Framework

variable {σ ε α β : Type}

/-- A computation on a state that may fail, which keeps the state; it may have no result. -/
abbrev Attempt (σ ε α : Type) : Type := ExceptT ε (StateT σ Option) α

namespace Attempt

def stuck : Attempt σ ε α := ExceptT.mk fun _ => none

def ofOption : Option α → Attempt σ ε α
  | some a => pure a
  | none => stuck

end Attempt

/-- The attempt has a result: a `good` value and state, or a `bad` error and state. -/
inductive Ends (m : Attempt σ ε α) (s : σ) (good : α → σ → Prop) (bad : ε → σ → Prop) : Prop
  | ok {a : α} {s' : σ} (hrun : m.run.run s = some (.ok a, s')) (h : good a s')
  | error {e : ε} {s' : σ} (hrun : m.run.run s = some (.error e, s')) (h : bad e s')

namespace Ends

variable {m : Attempt σ ε α} {f : α → Attempt σ ε β} {s : σ} {bad : ε → σ → Prop}

theorem pure {good : α → σ → Prop} {a : α} (h : good a s) :
    Ends (Pure.pure a : Attempt σ ε α) s good bad :=
  .ok rfl h

theorem throw {good : α → σ → Prop} {e : ε} (h : bad e s) :
    Ends (MonadExcept.throw e : Attempt σ ε α) s good bad :=
  .error rfl h

theorem get {good : σ → σ → Prop} (h : good s s) :
    Ends (MonadState.get : Attempt σ ε σ) s good bad :=
  .ok rfl h

theorem modify {good : Unit → σ → Prop} {bad : ε → σ → Prop} {g : σ → σ} (h : good () (g s)) :
    Ends (modify g : Attempt σ ε Unit) s good bad :=
  .ok rfl h

theorem ofOption {good : α → σ → Prop} {o : Option α} {a : α} (ho : o = some a) (h : good a s) :
    Ends (Attempt.ofOption o : Attempt σ ε α) s good bad := by
  subst ho
  exact .ok rfl h

theorem mono {good good' : α → σ → Prop} {bad bad' : ε → σ → Prop} (h : Ends m s good bad)
    (hgood : ∀ a s', good a s' → good' a s') (hbad : ∀ e s', bad e s' → bad' e s') :
    Ends m s good' bad' := by
  cases h with
  | ok hrun h => exact .ok hrun (hgood _ _ h)
  | error hrun h => exact .error hrun (hbad _ _ h)

theorem run_bind_ok {a : α} {s' : σ} (hrun : m.run.run s = some (.ok a, s')) :
    (m >>= f).run.run s = (f a).run.run s' := by
  simp [ExceptT.run_bind, StateT.run_bind, hrun]

theorem run_bind_error {e : ε} {s' : σ} (hrun : m.run.run s = some (.error e, s')) :
    (m >>= f).run.run s = some (.error e, s') := by
  simp only [ExceptT.run_bind, StateT.run_bind, hrun, Option.bind_eq_bind, Option.bind_some]
  rfl

theorem bind {good : β → σ → Prop} (h : Ends m s (fun a s' => Ends (f a) s' good bad) bad) :
    Ends (m >>= f) s good bad := by
  cases h with
  | error hrun h => exact .error (run_bind_error hrun) h
  | ok hrun h =>
    cases h with
    | ok hnext h => exact .ok ((run_bind_ok hrun).trans hnext) h
    | error hnext h => exact .error ((run_bind_ok hrun).trans hnext) h

theorem forM_range {body : Nat → Attempt σ ε Unit} (Inv : Nat → σ → Prop) {n : Nat}
    (hstart : Inv 0 s)
    (hstep : ∀ k < n, ∀ s, Inv k s → Ends (body k) s (fun _ => Inv (k + 1)) bad) :
    Ends ((List.range n).forM body) s (fun _ => Inv n) bad := by
  have hrest : ∀ (len start : Nat) (s : σ), start + len = n → Inv start s →
      Ends ((List.range' start len).forM body) s (fun _ => Inv n) bad := by
    intro len
    induction len with
    | zero =>
      intro start s hlen h
      have hs : start = n := hlen
      subst hs
      exact .pure h
    | succ len ih =>
      intro start s hlen h
      rw [List.range'_succ]
      apply Ends.bind
      apply (hstep start (by omega) s h).mono
      · intro _ s' h'
        exact ih (start + 1) s' (by omega) h'
      · intro e s' he
        exact he
  rw [List.range_eq_range']
  exact hrest n 0 s (by omega) hstart

end Ends

def Below (m m' : Attempt σ ε α) : Prop :=
  ∀ s r, m.run.run s = some r → m'.run.run s = some r

namespace Below

theorem refl (m : Attempt σ ε α) : Below m m := by
  intro s r h
  exact h

theorem stuck (m : Attempt σ ε α) : Below Attempt.stuck m := by
  intro s r h
  cases h

theorem bind {m m' : Attempt σ ε α} {f f' : α → Attempt σ ε β} (hm : Below m m')
    (hf : ∀ a, Below (f a) (f' a)) : Below (m >>= f) (m' >>= f') := by
  intro s r h
  cases hrun : m.run.run s with
  | none =>
    simp only [ExceptT.run_bind, StateT.run_bind, hrun, Option.bind_eq_bind, Option.bind_none] at h
    cases h
  | some result =>
    obtain ⟨value, s'⟩ := result
    have hrun' := hm s _ hrun
    cases value with
    | ok a =>
      rw [Ends.run_bind_ok hrun] at h
      rw [Ends.run_bind_ok hrun']
      exact hf a s' r h
    | error e =>
      rw [Ends.run_bind_error hrun] at h
      rw [Ends.run_bind_error hrun']
      exact h

theorem ite {c : Prop} [Decidable c] {m m' n n' : Attempt σ ε α} (hm : Below m m') (hn : Below n n') :
    Below (if c then m else n) (if c then m' else n') := by
  split_ifs
  · exact hm
  · exact hn

end Below

end LoadForge.Framework
