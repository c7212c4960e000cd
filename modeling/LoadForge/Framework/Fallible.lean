import Mathlib.Data.List.Forall2
import Mathlib.Tactic.Ring

namespace LoadForge.Framework

/-- A chain of fallible computations succeeds exactly when each link does. -/
theorem bind_eq_ok {ε α β : Type} {x : Except ε α} {f : α → Except ε β} {b : β} :
    (x >>= f) = .ok b ↔ ∃ a, x = .ok a ∧ f a = .ok b := by
  cases x with
  | error e => simp [bind, Except.bind]
  | ok a => simp [bind, Except.bind]

theorem mapError_eq_ok {ε ε' α : Type} {g : ε → ε'} {x : Except ε α} {a : α} :
    x.mapError g = .ok a ↔ x = .ok a := by
  cases x <;> simp [Except.mapError]

/-- A traversal succeeds exactly when it succeeds on each element, with its results in order. -/
theorem mapM_eq_ok {ε α β : Type} {f : α → Except ε β} {xs : List α} {ys : List β} :
    xs.mapM f = .ok ys ↔ List.Forall₂ (fun x y => f x = .ok y) xs ys := by
  induction xs generalizing ys with
  | nil =>
    rw [List.mapM_nil, List.forall₂_nil_left_iff]
    constructor
    · intro h
      cases h
      rfl
    · rintro rfl
      rfl
  | cons x xs ih =>
    rw [List.mapM_cons, bind_eq_ok, List.forall₂_cons_left_iff]
    constructor
    · rintro ⟨y, hx, hrest⟩
      obtain ⟨rest, hxs, hys⟩ := bind_eq_ok.mp hrest
      cases hys
      exact ⟨y, rest, hx, ih.mp hxs, rfl⟩
    · rintro ⟨y, rest, hx, hxs, rfl⟩
      exact ⟨y, hx, bind_eq_ok.mpr ⟨rest, ih.mpr hxs, rfl⟩⟩

theorem mapM_eq_some {α β : Type} {f : α → Option β} {xs : List α} {ys : List β} :
    xs.mapM f = some ys ↔ List.Forall₂ (fun x y => f x = some y) xs ys := by
  induction xs generalizing ys with
  | nil => simp [eq_comm]
  | cons x xs ih =>
    rw [List.mapM_cons, List.forall₂_cons_left_iff]
    simp only [Option.bind_eq_bind, Option.bind_eq_some_iff, ih]
    simp [eq_comm]

theorem mapM_spec {α β : Type} {f : α → Option β} (P : α → β → Prop) {xs : List α}
    (h : ∀ x ∈ xs, ∃ y, f x = some y ∧ P x y) :
    ∃ ys, xs.mapM f = some ys ∧ List.Forall₂ P xs ys := by
  induction xs with
  | nil => exact ⟨[], rfl, List.Forall₂.nil⟩
  | cons x xs ih =>
    obtain ⟨y, hy, hP⟩ := h x (by simp)
    obtain ⟨ys, hys, hPs⟩ := ih fun x hx => h x (by simp [hx])
    refine ⟨y :: ys, ?_, List.Forall₂.cons hP hPs⟩
    rw [List.mapM_cons, hy, hys]
    rfl

section Forall₂

variable {α β : Type} {P : α → β → Prop} {xs : List α} {ys : List β}

theorem forall₂_at (h : List.Forall₂ P xs ys) {i : Nat} {y : β} (hy : ys[i]? = some y) :
    ∃ x, xs[i]? = some x ∧ P x y := by
  induction h generalizing i with
  | nil => cases hy
  | @cons x y' xs ys hxy hrest ih =>
    cases i with
    | zero =>
      cases hy
      exact ⟨x, rfl, hxy⟩
    | succ i => exact ih hy

theorem forall₂_mem (h : List.Forall₂ P xs ys) {y : β} (hy : y ∈ ys) : ∃ x ∈ xs, P x y := by
  obtain ⟨i, hi⟩ := List.mem_iff_getElem?.mp hy
  obtain ⟨x, hx, hxy⟩ := forall₂_at h hi
  exact ⟨x, List.mem_of_getElem? hx, hxy⟩

theorem forall₂_map {γ : Type} (f : α → γ) (g : β → γ) (h : List.Forall₂ P xs ys)
    (hsame : ∀ x y, P x y → g y = f x) : ys.map g = xs.map f := by
  induction h with
  | nil => rfl
  | @cons x y xs ys hxy hrest ih => simp [ih, hsame x y hxy]

end Forall₂

end LoadForge.Framework
