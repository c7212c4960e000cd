import Mathlib.Data.List.Nodup
import Mathlib.Data.List.Perm.Subperm
import Mathlib.Tactic.Ring

namespace LoadForge.Framework

open List

theorem block_lt {q x m k : Nat} (hq : q < k) (hx : x < m) : q * m + x < k * m :=
  calc q * m + x < q * m + m := Nat.add_lt_add_left hx _
    _ = (q + 1) * m := (Nat.succ_mul q m).symm
    _ ≤ k * m := Nat.mul_le_mul_right m hq

theorem block_div {q x m : Nat} (hx : x < m) : (q * m + x) / m = q := by
  rw [Nat.mul_comm, Nat.mul_add_div (by omega), Nat.div_eq_of_lt hx, Nat.add_zero]

theorem block_inj {q q' x x' m : Nat} (hx : x < m) (hx' : x' < m) (h : q * m + x = q' * m + x') :
    q = q' ∧ x = x' := by
  constructor
  · rw [← block_div (q := q) hx, h, block_div hx']
  · rw [← Nat.mul_add_mod_of_lt (a := q) hx, h, Nat.mul_add_mod_of_lt hx']

theorem perm_range_of_nodup {xs : List Nat} {n : Nat} (hnodup : xs.Nodup) (hlt : ∀ x ∈ xs, x < n)
    (hlength : xs.length = n) : xs.Perm (range n) := by
  have hsub : xs ⊆ range n := fun x hx => mem_range.mpr (hlt x hx)
  apply (hnodup.subperm hsub).perm_of_length_le
  rw [length_range]
  exact Nat.le_of_eq hlength.symm

theorem perm_range_of_blocks {m r : Nat} (place : Nat → Nat → Nat)
    (hlt : ∀ i < m, ∀ a < r, place i a < m * r)
    (hinj : ∀ i < m, ∀ a < r, ∀ j < m, ∀ b < r, place i a = place j b → i = j ∧ a = b) :
    ((range m).flatMap fun i => (range r).map (place i)).Perm (range (m * r)) := by
  apply perm_range_of_nodup
  · rw [nodup_flatMap]
    constructor
    · intro i hi
      apply Nodup.map_on _ nodup_range
      intro a ha b hb heq
      exact (hinj i (mem_range.mp hi) a (mem_range.mp ha) i (mem_range.mp hi) b
        (mem_range.mp hb) heq).2
    · apply nodup_range.imp_of_mem
      intro i j hi hj hne x hx hx'
      obtain ⟨a, ha, rfl⟩ := mem_map.mp hx
      obtain ⟨b, hb, heq⟩ := mem_map.mp hx'
      exact hne (hinj i (mem_range.mp hi) a (mem_range.mp ha) j (mem_range.mp hj) b
        (mem_range.mp hb) heq.symm).1
  · intro x hx
    obtain ⟨i, hi, hmem⟩ := mem_flatMap.mp hx
    obtain ⟨a, ha, rfl⟩ := mem_map.mp hmem
    exact hlt i (mem_range.mp hi) a (mem_range.mp ha)
  · rw [length_flatMap]
    simp

end LoadForge.Framework
