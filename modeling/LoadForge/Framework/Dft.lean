import Mathlib.Algebra.BigOperators.Ring.Finset
import Mathlib.Tactic.Ring

namespace LoadForge.Framework

variable {R : Type} [CommRing R]

/-- The discrete Fourier transform of so many points. -/
def dft (root : R) (n : Nat) (x : Nat → R) (k : Nat) : R :=
  ∑ j ∈ Finset.range n, x j * root ^ (j * k)

theorem dft_one (root : R) (x : Nat → R) : dft root 1 x 0 = x 0 := by
  simp [dft]

theorem sum_range_mul (f : Nat → R) (r m : Nat) :
    ∑ i ∈ Finset.range (r * m), f i =
      ∑ a ∈ Finset.range r, ∑ j ∈ Finset.range m, f (r * j + a) := by
  induction m with
  | zero => simp
  | succ m ih =>
    rw [Nat.mul_succ, Finset.sum_range_add, ih, ← Finset.sum_add_distrib]
    apply Finset.sum_congr rfl
    intro a _
    rw [Finset.sum_range_succ]

/-- A transform from those of the points with each remainder, twiddled and combined. -/
theorem dft_mul (root : R) (r m : Nat) (h : root ^ (r * m) = 1) (x : Nat → R) (v b : Nat) :
    dft root (r * m) x (v + b * m) = ∑ a ∈ Finset.range r,
      dft (root ^ r) m (fun j => x (r * j + a)) v * root ^ (a * v) * (root ^ m) ^ (a * b) := by
  rw [dft, sum_range_mul]
  apply Finset.sum_congr rfl
  intro a _
  rw [dft, Finset.sum_mul, Finset.sum_mul]
  apply Finset.sum_congr rfl
  intro j _
  have hexponent : (r * j + a) * (v + b * m) = r * (j * v) + r * m * (j * b) + a * v + m * (a * b) := by
    ring
  rw [hexponent, pow_add, pow_add, pow_add, pow_mul root (r * m), h, one_pow, mul_one,
    pow_mul root r, pow_mul root m]
  ring

theorem dft_congr {root : R} {n : Nat} {x y : Nat → R} (h : ∀ j < n, x j = y j) (k : Nat) :
    dft root n x k = dft root n y k := by
  apply Finset.sum_congr rfl
  intro j hj
  rw [h j (Finset.mem_range.mp hj)]

end LoadForge.Framework
