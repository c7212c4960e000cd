import Mathlib.Algebra.BigOperators.Group.List.Basic
import Mathlib.Data.UInt
import Mathlib.Tactic.Ring

namespace LoadForge.Framework

def kMaxWord : UInt64 := 0xFFFFFFFFFFFFFFFF

theorem toNat_sum_of_lt (xs : List UInt64) (hx : (xs.map UInt64.toNat).sum < 2 ^ 64) :
    xs.sum.toNat = (xs.map UInt64.toNat).sum := by
  induction xs with
  | nil => rfl
  | cons x xs ih =>
    rw [List.map_cons, List.sum_cons] at hx
    rw [List.sum_cons, List.map_cons, List.sum_cons, UInt64.toNat_add, ih (by omega),
      Nat.mod_eq_of_lt hx]

def satAdd (total each : UInt64) : UInt64 :=
  if kMaxWord - total < each then kMaxWord else total + each

def satSum (xs : List UInt64) : UInt64 := xs.foldl satAdd 0

end LoadForge.Framework
