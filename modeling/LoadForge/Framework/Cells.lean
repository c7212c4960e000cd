import LoadForge.Framework.Loop

namespace LoadForge.Framework

open List

variable {α : Type}

/-- A value written to one cell of an array. There is no write outside of the array. -/
def storeCell (cells : List α) (i : Nat) (a : α) : Option (List α) :=
  if i < cells.length then some (cells.set i a) else none

/-- An array of so many cells, and what is in each of them. -/
structure Shows (cells : List α) (n : Nat) (value : Nat → α) : Prop where
  size : cells.length = n
  get : ∀ i < n, cells[i]? = some (value i)

theorem shows_replicate (n : Nat) (a : α) : Shows (replicate n a) n fun _ => a := by
  refine ⟨length_replicate .., ?_⟩
  intro i hi
  rw [getElem?_replicate, if_pos hi]

theorem shows_map_range (n : Nat) (value : Nat → α) : Shows ((range n).map value) n value := by
  refine ⟨by rw [length_map, length_range], ?_⟩
  intro i hi
  rw [getElem?_map, getElem?_range hi]
  rfl

theorem shows_getD (d : α) {cells : List α} {n : Nat} (h : cells.length = n) :
    Shows cells n fun i => cells.getD i d := by
  refine ⟨h, ?_⟩
  intro i hi
  rw [getD_eq_getElem?_getD, getElem?_eq_getElem (by omega)]
  rfl

section

variable {cells : List α} {n : Nat} {value : Nat → α}

theorem Shows.congr {value' : Nat → α} (h : Shows cells n value)
    (hv : ∀ i < n, value i = value' i) : Shows cells n value' := by
  refine ⟨h.size, ?_⟩
  intro i hi
  rw [h.get i hi, hv i hi]

theorem Shows.set (h : Shows cells n value) {i : Nat}
    (hi : i < n) (a : α) : Shows (cells.set i a) n (Function.update value i a) := by
  refine ⟨by rw [length_set, h.size], ?_⟩
  intro j hj
  by_cases hij : j = i
  · rw [hij, Function.update_self, getElem?_set_self (h.size ▸ hi)]
  · rw [Function.update_of_ne hij, getElem?_set_ne (Ne.symm hij), h.get j hj]

theorem Shows.store (h : Shows cells n value) {i : Nat}
    (hi : i < n) (a : α) : ∃ cells', storeCell cells i a = some cells' ∧
      Shows cells' n (Function.update value i a) :=
  ⟨_, if_pos (h.size ▸ hi), h.set hi a⟩

end

theorem Shows.unique {cells cells' : List α} {n : Nat} {value : Nat → α} (h : Shows cells n value)
    (h' : Shows cells' n value) : cells = cells' := by
  apply ext_getElem?
  intro i
  by_cases hi : i < n
  · rw [h.get i hi, h'.get i hi]
  · rw [getElem?_eq_none (by rw [h.size]; omega), getElem?_eq_none (by rw [h'.size]; omega)]

theorem foldlM_fill {f : List α → Nat → Option (List α)} {value : Nat → α} {cells : List α} {n : Nat}
    (h : cells.length = n) (hstep : ∀ k < n, ∀ cells, f cells k = storeCell cells k (value k)) :
    ∃ cells', (range n).foldlM f cells = some cells' ∧ Shows cells' n value := by
  apply foldlM_range_result fun k (cells' : List α) => cells'.length = n ∧
    ∀ i < k, cells'[i]? = some (value i)
  · intro k hk cells' hcells
    refine ⟨cells'.set k (value k), ?_, ?_, ?_⟩
    · rw [hstep k hk]
      exact if_pos (by omega)
    · rw [length_set, hcells.1]
    · intro i hi
      by_cases hik : i = k
      · rw [hik, getElem?_set_self (by omega)]
      · rw [getElem?_set_ne (Ne.symm hik)]
        exact hcells.2 i (by omega)
  · exact ⟨h, fun i hi => absurd hi (Nat.not_lt_zero i)⟩
  · exact fun cells' hcells => ⟨hcells.1, hcells.2⟩

end LoadForge.Framework
