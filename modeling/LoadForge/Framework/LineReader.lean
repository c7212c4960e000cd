import LoadForge.Framework.Fallible

namespace LoadForge.Framework

section Reader

variable {σ τ ε α β : Type}

/-- The reader answers `a` and leaves `rest` in view. -/
def Leaves (view : σ → List τ) (get : StateT σ (Except ε) α) (s : σ) (a : α) (rest : List τ) :
    Prop :=
  ∃ s', get.run s = .ok (a, s') ∧ view s' = rest

/-- The reader takes exactly what its values are written as. -/
def Takes (view : σ → List τ) (get : StateT σ (Except ε) α) (written : α → List τ → Prop) : Prop :=
  ∀ s a rest, Leaves view get s a rest ↔ ∃ front, written a front ∧ view s = front ++ rest

variable {view : σ → List τ} {get : StateT σ (Except ε) α} {written : α → List τ → Prop}

theorem Takes.congr {written' : α → List τ → Prop} (h : Takes view get written)
    (hsame : ∀ a front, written a front ↔ written' a front) : Takes view get written' := by
  intro s a rest
  rw [h s a rest]
  simp only [hsame]

theorem Takes.pure (a : α) :
    Takes view (Pure.pure a : StateT σ (Except ε) α) (fun b front => b = a ∧ front = []) := by
  intro s b rest
  constructor
  · rintro ⟨s', hrun, hrest⟩
    cases hrun
    exact ⟨[], ⟨rfl, rfl⟩, hrest⟩
  · rintro ⟨front, ⟨rfl, rfl⟩, hview⟩
    exact ⟨s, rfl, hview⟩

theorem Takes.bind {next : α → StateT σ (Except ε) β} {written' : α → β → List τ → Prop}
    (h : Takes view get written) (hnext : ∀ a, Takes view (next a) (written' a)) :
    Takes view (get >>= next) fun b front =>
      ∃ a before after, written a before ∧ written' a b after ∧ front = before ++ after := by
  intro s b rest
  constructor
  · rintro ⟨s', hrun, hrest⟩
    rw [StateT.run_bind, bind_eq_ok] at hrun
    obtain ⟨⟨a, mid⟩, hget, hthen⟩ := hrun
    obtain ⟨before, hbefore, hview⟩ := (h s a (view mid)).mp ⟨mid, hget, rfl⟩
    obtain ⟨after, hafter, hmid⟩ := (hnext a mid b rest).mp ⟨s', hthen, hrest⟩
    refine ⟨before ++ after, ⟨a, before, after, hbefore, hafter, rfl⟩, ?_⟩
    rw [hview, hmid, List.append_assoc]
  · rintro ⟨front, ⟨a, before, after, hbefore, hafter, rfl⟩, hview⟩
    rw [List.append_assoc] at hview
    obtain ⟨mid, hget, hmid⟩ := (h s a (after ++ rest)).mpr ⟨before, hbefore, hview⟩
    obtain ⟨s', hthen, hrest⟩ := (hnext a mid b rest).mpr ⟨after, hafter, hmid⟩
    refine ⟨s', ?_, hrest⟩
    rw [StateT.run_bind, bind_eq_ok]
    exact ⟨(a, mid), hget, hthen⟩

section

variable {fail : StateT σ (Except ε) α} (hfail : ∀ s, ∃ e, fail.run s = .error e)
include hfail

theorem Takes.refuse : Takes view fail fun _ _ => False := by
  intro s a rest
  constructor
  · rintro ⟨s', hrun, -⟩
    obtain ⟨e, he⟩ := hfail s
    rw [he] at hrun
    cases hrun
  · rintro ⟨_, hfalse, -⟩
    exact hfalse.elim

/-- A reader behind a check takes what passes it. -/
theorem Takes.unless {c : Prop} [Decidable c] (h : Takes view get written) :
    Takes view (if c then fail else get) fun a front => ¬ c ∧ written a front := by
  by_cases hc : c
  · rw [if_pos hc]
    apply (Takes.refuse hfail).congr
    simp [hc]
  · rw [if_neg hc]
    apply h.congr
    simp [hc]

end

/-- A reader that looks at what another one took, and takes no more itself. -/
theorem Takes.then {next : α → StateT σ (Except ε) β} {ok : α → β → Prop}
    (h : Takes view get written)
    (hnext : ∀ a, Takes view (next a) fun b front => ok a b ∧ front = []) :
    Takes view (get >>= next) fun b front => ∃ a, written a front ∧ ok a b := by
  apply (h.bind hnext).congr
  intro b front
  constructor
  · rintro ⟨a, before, after, hbefore, ⟨hok, rfl⟩, rfl⟩
    rw [List.append_nil]
    exact ⟨a, hbefore, hok⟩
  · rintro ⟨a, hwritten, hok⟩
    exact ⟨a, front, [], hwritten, ⟨hok, rfl⟩, (List.append_nil front).symm⟩

theorem Takes.item {next : α → StateT σ (Except ε) β} {ok : α → Prop} {item : α → τ}
    {written' : α → β → List τ → Prop}
    (h : Takes view get fun a front => ok a ∧ front = [item a])
    (hnext : ∀ a, Takes view (next a) (written' a)) :
    Takes view (get >>= next) fun b front =>
      ∃ a, ok a ∧ ∃ after, written' a b after ∧ front = item a :: after := by
  apply (h.bind hnext).congr
  intro b front
  constructor
  · rintro ⟨a, before, after, ⟨hok, rfl⟩, hafter, rfl⟩
    exact ⟨a, hok, after, hafter, rfl⟩
  · rintro ⟨a, hok, after, hafter, rfl⟩
    exact ⟨a, [item a], after, ⟨hok, rfl⟩, hafter, rfl⟩

end Reader

end LoadForge.Framework
