import Mathlib.Algebra.Order.BigOperators.Group.Finset
import Mathlib.Tactic.Ring

namespace LoadForge.Framework

/-- A number that every place has, added up over the first places. -/
def tally {α : Type} (g : α → Nat) (f : Nat → α) (n : Nat) : Nat := ∑ i ∈ Finset.range n, g (f i)

theorem tally_succ {α : Type} (g : α → Nat) (f : Nat → α) (n : Nat) :
    tally g f (n + 1) = tally g f n + g (f n) := Finset.sum_range_succ ..

theorem tally_congr {α β : Type} {g : α → Nat} {h : β → Nat} {f : Nat → α} {k : Nat → β} {n : Nat}
    (hsame : ∀ i < n, g (f i) = h (k i)) : tally g f n = tally h k n :=
  Finset.sum_congr rfl fun i hi => hsame i (Finset.mem_range.mp hi)

theorem tally_update {α : Type} (g : α → Nat) (f : Nat → α) {n slot : Nat} (a : α) (h : slot < n) :
    tally g (Function.update f slot a) n + g (f slot) = tally g f n + g a := by
  induction n with
  | zero => exact absurd h (Nat.not_lt_zero _)
  | succ n ih =>
    rw [tally_succ, tally_succ]
    by_cases hlast : slot = n
    · have hfront : tally g (Function.update f slot a) n = tally g f n := by
        apply tally_congr
        intro i hi
        rw [Function.update_of_ne (by omega)]
      rw [hfront, hlast, Function.update_self]
      omega
    · rw [Function.update_of_ne (Ne.symm hlast)]
      have hinduct := ih (by omega)
      omega

variable {α : Type} {g : α → Nat} {f : Nat → α} {n : Nat}

theorem tally_const {c : Nat} (h : ∀ i < n, g (f i) = c) : tally g f n = n * c := by
  rw [tally, Finset.sum_const_nat fun i hi => h i (Finset.mem_range.mp hi), Finset.card_range]

theorem tally_le {c : Nat} (h : ∀ i < n, g (f i) ≤ c) : tally g f n ≤ n * c := by
  induction n with
  | zero => exact Nat.zero_le _
  | succ n ih =>
    have hfront := ih fun i hi => h i (Nat.lt_succ_of_lt hi)
    have hlast := h n (Nat.lt_succ_self n)
    rw [tally_succ, Nat.succ_mul]
    omega

theorem tally_lt (hone : ∀ a, g a ≤ 1) {i : Nat} (hi : i < n) (h : g (f i) = 0) :
    tally g f n < n := by
  have hless : tally g f n < ∑ _i ∈ Finset.range n, 1 := by
    apply Finset.sum_lt_sum
    · intro j _
      exact hone (f j)
    · exact ⟨i, Finset.mem_range.mpr hi, by omega⟩
  rw [Finset.sum_const_nat fun _ _ => rfl, Finset.card_range, Nat.mul_one] at hless
  exact hless

theorem forall_of_tally_eq (hone : ∀ a, g a ≤ 1) (h : tally g f n = n) (i : Nat) (hi : i < n) :
    g (f i) = 1 := by
  by_contra hne
  have hle := hone (f i)
  have hless := tally_lt hone hi (by omega : g (f i) = 0)
  omega

end LoadForge.Framework
