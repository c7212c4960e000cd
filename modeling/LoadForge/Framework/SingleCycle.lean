import Mathlib.GroupTheory.Perm.Cycle.Basic
import Mathlib.Tactic.Ring

namespace LoadForge.Framework

open Equiv Equiv.Perm

variable {α : Type} [DecidableEq α]

/-- A point joins a cycle: it is put before a point of it, and nothing else changes. -/
theorem isCycleOn_swap_mul {f : Perm α} {s : Finset α} {a b : α} (h : f.IsCycleOn s) (ha : f a = a)
    (hout : a ∉ s) (hb : b ∈ s) : (swap a b * f).IsCycleOn (insert a s : Finset α) := by
  obtain ⟨g, hg⟩ : ∃ g, g = swap a b * f := ⟨_, rfl⟩
  have hself : g.SameCycle a b := by
    have hgo : g a = b := by rw [hg, Perm.mul_apply, ha, swap_apply_left]
    exact hgo ▸ (SameCycle.refl g a).apply_right
  have hstep : ∀ x ∈ s, g.SameCycle x (f x) := by
    intro x hx
    have hgo := (SameCycle.refl g x).apply_right
    have hne : f x ≠ a := fun hfx => hout (hfx ▸ h.1.mapsTo hx)
    by_cases hfx : f x = b
    · have hjoin : g x = a := by rw [hg, Perm.mul_apply, hfx, swap_apply_right]
      rw [hjoin] at hgo
      exact hfx ▸ hgo.trans hself
    · rwa [hg, Perm.mul_apply, swap_apply_of_ne_of_ne hne hfx, ← hg] at hgo
  have hreach : ∀ x ∈ s, g.SameCycle b x := by
    intro x hx
    obtain ⟨n, -, rfl⟩ := h.exists_pow_eq hb hx
    clear hx
    induction n with
    | zero => exact SameCycle.refl g b
    | succ n ih =>
      rw [pow_succ', Perm.mul_apply]
      exact ih.trans (hstep _ ((h.1.perm_pow n).mapsTo hb))
  have hall : ∀ x ∈ insert a s, g.SameCycle a x := by
    intro x hx
    cases Finset.mem_insert.mp hx with
    | inl hxa => exact hxa ▸ SameCycle.refl g a
    | inr hx => exact hself.trans (hreach x hx)
  rw [← hg]
  refine ⟨?_, fun x hx y hy => (hall x hx).symm.trans (hall y hy)⟩
  have hf := h.1.insert (a := a) (by rwa [ha])
  rw [ha] at hf
  rw [hg, Finset.coe_insert]
  exact (swap_bijOn_self (by simp [hb])).comp hf

/-- Every number up to `m` is put into the cycle of 0, before a smaller one. -/
def cycleUpTo (before : Nat → Nat) : Nat → Perm Nat
  | 0 => 1
  | m + 1 => swap (m + 1) (before (m + 1)) * cycleUpTo before m

theorem cycleUpTo_isCycleOn {before : Nat → Nat} (h : ∀ m, 0 < m → before m < m) (m : Nat) :
    (∀ x, m < x → cycleUpTo before m x = x) ∧
      (cycleUpTo before m).IsCycleOn (Finset.range (m + 1)) := by
  induction m with
  | zero => exact ⟨fun x _ => rfl, by simp [cycleUpTo]⟩
  | succ m ih =>
    have hbefore := h (m + 1) (Nat.succ_pos m)
    refine ⟨?_, ?_⟩
    · intro x hx
      rw [cycleUpTo, Perm.mul_apply, ih.1 x (by omega), swap_apply_of_ne_of_ne (by omega) (by omega)]
    · rw [Finset.range_add_one]
      exact isCycleOn_swap_mul ih.2 (ih.1 _ (Nat.lt_succ_self m)) (by simp) (Finset.mem_range.mpr hbefore)

end LoadForge.Framework
