import LoadForge.Workloads.Bfs

namespace LoadForge.Workloads.Graph

open Framework List Function Option

/-- The vertex a task has won and has no slot for yet. -/
def Task.adds : Task → Option Nat
  | .add vertex _ => some vertex
  | _ => none

/-- The vertex a task has still to write, and its slot. -/
def Task.puts : Task → Option (Nat × Nat)
  | .put vertex slot _ => some (vertex, slot)
  | _ => none

def Task.Plain (task : Task) : Prop := task.adds = none ∧ task.puts = none

/-- A vertex has the next distance when it is in the order of slots or on its way to it, once, and
a slot holds its vertex unless it is about to be written. -/
structure Claims (level : Nat) (d : Nat → Nat) (n : Nat) (t : Nat → Task) (order : List Nat)
    (spare : List Nat) : Prop where
  nodup : order.Nodup
  lt_of_mem : ∀ v ∈ order, v < kVertices
  lt_of_adds : ∀ i < n, ∀ v, (t i).adds = some v → v < kVertices
  claimed : ∀ v < kVertices, d v = level + 1 ↔ v ∈ order ∨ ∃ i < n, (t i).adds = some v
  single : ∀ i < n, ∀ j < n, ∀ v, (t i).adds = some v → (t j).adds = some v → i = j
  fresh : ∀ i < n, ∀ v, (t i).adds = some v → v ∉ order
  slots : ∀ k v, order[k]? = some v → spare[k]? = some v ∨ ∃ i < n, (t i).puts = some (v, k)
  puts : ∀ i < n, ∀ v k, (t i).puts = some (v, k) → order[k]? = some v
  size : spare.length = kVertices

section Claims

variable {level n : Nat} {d : Nat → Nat} {t : Nat → Task} {order spare : List Nat}

theorem claims_start (hd : ∀ v < kVertices, d v ≠ level + 1) (ht : ∀ i < n, (t i).Plain)
    (hs : spare.length = kVertices) : Claims level d n t [] spare := by
  refine ⟨nodup_nil, ?_, ?_, ?_, ?_, ?_, ?_, ?_, hs⟩
  · intro v hv
    exact absurd hv not_mem_nil
  · intro i hi v hv
    exact absurd ((ht i hi).1.symm.trans hv) (some_ne_none v).symm
  · intro v hv
    apply iff_of_false (hd v hv)
    rintro (hmem | ⟨i, hi, hadds⟩)
    · exact not_mem_nil hmem
    · exact absurd ((ht i hi).1.symm.trans hadds) (some_ne_none v).symm
  · intro i hi j _ v hv
    exact absurd ((ht i hi).1.symm.trans hv) (some_ne_none v).symm
  · intro i _ v _
    exact not_mem_nil
  · intro k v hv
    rw [getElem?_nil] at hv
    exact absurd hv (some_ne_none v).symm
  · intro i hi v k hv
    exact absurd ((ht i hi).2.symm.trans hv) (some_ne_none _).symm

theorem slot_update {β : Type} (slot : Task → Option β) {i j : Nat} {task : Task} {b : β}
    (h : slot (update t i task j) = some b) :
    j = i ∧ slot task = some b ∨ j ≠ i ∧ slot (t j) = some b := by
  by_cases hji : j = i
  · rw [hji, update_self] at h
    exact .inl ⟨hji, h⟩
  · rw [update_of_ne hji] at h
    exact .inr ⟨hji, h⟩

theorem adds_update_iff {i : Nat} (hi : i < n) (hold : (t i).adds = none) (task : Task) (v : Nat) :
    (∃ j < n, (update t i task j).adds = some v) ↔
      task.adds = some v ∨ ∃ j < n, (t j).adds = some v := by
  constructor
  · rintro ⟨j, hj, hadds⟩
    rcases slot_update Task.adds hadds with ⟨_, hnew⟩ | ⟨_, hother⟩
    · exact .inl hnew
    · exact .inr ⟨j, hj, hother⟩
  · rintro (hnew | ⟨j, hj, hother⟩)
    · exact ⟨i, hi, by rw [update_self]; exact hnew⟩
    · have hji : j ≠ i := fun heq => by rw [heq, hold] at hother; exact some_ne_none v hother.symm
      exact ⟨j, hj, by rw [update_of_ne hji]; exact hother⟩

variable (h : Claims level d n t order spare)

include h

theorem slots_update {i : Nat} (hold : (t i).puts = none)
    (task : Task) : ∀ k v, order[k]? = some v →
      spare[k]? = some v ∨ ∃ j < n, (update t i task j).puts = some (v, k) := by
  intro k v hget
  rcases h.slots k v hget with hslot | ⟨j, hj, hputs⟩
  · exact .inl hslot
  · have hji : j ≠ i := fun heq => by rw [heq, hold] at hputs; exact some_ne_none _ hputs.symm
    exact .inr ⟨j, hj, by rw [update_of_ne hji]; exact hputs⟩

section

variable {i : Nat} (hi : i < n)
include hi

/-- A task without a vertex of its own goes on to nothing new, its slots kept or written. -/
theorem Claims.moves (hold : (t i).adds = none) {task : Task} (hnew : task.Plain)
    {spare' : List Nat} (hslots : ∀ k v, order[k]? = some v →
      spare'[k]? = some v ∨ ∃ j < n, (update t i task j).puts = some (v, k))
    (hsize : spare'.length = kVertices) : Claims level d n (update t i task) order spare' := by
  have hsome : ∀ {j v}, (update t i task j).adds = some v → (t j).adds = some v := by
    intro j v hadds
    rcases slot_update Task.adds hadds with ⟨_, hmine⟩ | ⟨_, hother⟩
    · exact absurd (hnew.1.symm.trans hmine) (some_ne_none v).symm
    · exact hother
  refine ⟨h.nodup, h.lt_of_mem, ?_, ?_, ?_, ?_, hslots, ?_, hsize⟩
  · intro j hj v hadds
    exact h.lt_of_adds j hj v (hsome hadds)
  · intro v hv
    rw [adds_update_iff hi hold, hnew.1, h.claimed v hv]
    simp
  · intro j hj k hk v hadds hadds'
    exact h.single j hj k hk v (hsome hadds) (hsome hadds')
  · intro j hj v hadds
    exact h.fresh j hj v (hsome hadds)
  · intro j hj v k hputs
    rcases slot_update Task.puts hputs with ⟨_, hmine⟩ | ⟨_, hother⟩
    · exact absurd (hnew.2.symm.trans hmine) (some_ne_none _).symm
    · exact h.puts j hj v k hother

theorem Claims.keep (hold : (t i).Plain) {task : Task} (hnew : task.Plain) :
    Claims level d n (update t i task) order spare :=
  h.moves hi hold.1 hnew (slots_update h hold.2 task) h.size

theorem Claims.claim
    (hold : (t i).Plain) {w : Nat} (hw : w < kVertices) (hd : d w ≠ level + 1) (after : Task) :
    Claims level (update d w (level + 1)) n (update t i (.add w after)) order
      spare := by
  have hnone : ∀ j < n, (t j).adds ≠ some w :=
    fun j hj hadds => hd ((h.claimed w hw).mpr (.inr ⟨j, hj, hadds⟩))
  have hfresh : w ∉ order := fun hmem => hd ((h.claimed w hw).mpr (.inl hmem))
  refine ⟨h.nodup, h.lt_of_mem, ?_, ?_, ?_, ?_, slots_update h hold.2 _, ?_, h.size⟩
  · intro j hj v hadds
    rcases slot_update Task.adds hadds with ⟨_, hmine⟩ | ⟨_, hother⟩
    · exact some.inj hmine ▸ hw
    · exact h.lt_of_adds j hj v hother
  · intro v hv
    rw [adds_update_iff hi hold.1]
    by_cases hvw : v = w
    · rw [hvw, update_self]
      exact iff_of_true rfl (.inr (.inl rfl))
    · have hne : (Task.add w after).adds ≠ some v := fun heq => hvw (some.inj heq).symm
      rw [update_of_ne hvw, h.claimed v hv, or_iff_right hne]
  · intro j hj k hk v hadds hadds'
    rcases slot_update Task.adds hadds with ⟨hji, hmine⟩ | ⟨_, hother⟩
    · rcases slot_update Task.adds hadds' with ⟨hki, _⟩ | ⟨_, hother'⟩
      · rw [hji, hki]
      · exact absurd (some.inj hmine ▸ hother') (hnone k hk)
    · rcases slot_update Task.adds hadds' with ⟨_, hmine'⟩ | ⟨_, hother'⟩
      · exact absurd (some.inj hmine' ▸ hother) (hnone j hj)
      · exact h.single j hj k hk v hother hother'
  · intro j hj v hadds
    rcases slot_update Task.adds hadds with ⟨_, hmine⟩ | ⟨_, hother⟩
    · exact some.inj hmine ▸ hfresh
    · exact h.fresh j hj v hother
  · intro j hj v k hputs
    rcases slot_update Task.puts hputs with ⟨_, hmine⟩ | ⟨_, hother⟩
    · exact absurd hmine (some_ne_none _).symm
    · exact h.puts j hj v k hother

theorem Claims.room {w : Nat}
    (hadds : (t i).adds = some w) : (order ++ [w]).Nodup ∧ order.length < kVertices := by
  have hnodup : (order ++ [w]).Nodup := by
    rw [← concat_eq_append]
    exact h.nodup.concat (h.fresh i hi w hadds)
  refine ⟨hnodup, ?_⟩
  have hle : (order ++ [w]).length ≤ kVertices := by
    apply length_le_of_nodup hnodup
    exact forall_mem_append.mpr ⟨h.lt_of_mem, forall_mem_singleton.mpr (h.lt_of_adds i hi w hadds)⟩
  rw [length_append, length_singleton] at hle
  omega

/-- A task is handed the next slot for the vertex it has. -/
theorem Claims.add {w : Nat} {after : Task}
    (htask : t i = .add w after) :
    Claims level d n (update t i (.put w order.length after)) (order ++ [w]) spare := by
  have hadds : (t i).adds = some w := by rw [htask]; rfl
  have hputs : (t i).puts = none := by rw [htask]; rfl
  have hother : ∀ {j v}, (update t i (.put w order.length after) j).adds = some v →
      j ≠ i ∧ (t j).adds = some v := by
    intro j v hupdate
    rcases slot_update Task.adds hupdate with ⟨_, hmine⟩ | hrest
    · exact absurd hmine (some_ne_none v).symm
    · exact hrest
  have hne : ∀ {j v}, j < n → j ≠ i → (t j).adds = some v → v ≠ w := by
    intro j v hj hji hadds' hvw
    exact hji (h.single j hj i hi w (hvw ▸ hadds') hadds)
  refine ⟨(h.room hi hadds).1, ?_, ?_, ?_, ?_, ?_, ?_, ?_, h.size⟩
  · exact forall_mem_append.mpr ⟨h.lt_of_mem, forall_mem_singleton.mpr (h.lt_of_adds i hi w hadds)⟩
  · intro j hj v hupdate
    exact h.lt_of_adds j hj v (hother hupdate).2
  · intro v hv
    rw [h.claimed v hv, mem_append, mem_singleton]
    constructor
    · rintro (hmem | ⟨j, hj, hadds'⟩)
      · exact .inl (.inl hmem)
      · by_cases hji : j = i
        · rw [hji, hadds] at hadds'
          exact .inl (.inr (some.inj hadds').symm)
        · exact .inr ⟨j, hj, by rw [update_of_ne hji]; exact hadds'⟩
    · rintro ((hmem | hvw) | ⟨j, hj, hupdate⟩)
      · exact .inl hmem
      · exact .inr ⟨i, hi, hvw ▸ hadds⟩
      · exact .inr ⟨j, hj, (hother hupdate).2⟩
  · intro j hj k hk v hupdate hupdate'
    exact h.single j hj k hk v (hother hupdate).2 (hother hupdate').2
  · intro j hj v hupdate hmem
    obtain ⟨hji, hadds'⟩ := hother hupdate
    rw [mem_append, mem_singleton] at hmem
    rcases hmem with hmem | hvw
    · exact h.fresh j hj v hadds' hmem
    · exact hne hj hji hadds' hvw
  · intro k v hget
    by_cases hk : k < order.length
    · rw [getElem?_append_left hk] at hget
      exact slots_update h hputs _ k v hget
    · rw [getElem?_append_right (by omega), getElem?_singleton] at hget
      split_ifs at hget with hzero
      have hlast : k = order.length := by omega
      refine .inr ⟨i, hi, ?_⟩
      rw [update_self, hlast, ← some.inj hget]
      rfl
  · intro j hj v k hupdate
    rcases slot_update Task.puts hupdate with ⟨_, hmine⟩ | ⟨_, hrest⟩
    · obtain ⟨hvw, hk⟩ := Prod.mk.inj (some.inj hmine)
      rw [← hvw, ← hk, getElem?_concat_length]
    · have hget := h.puts j hj v k hrest
      rw [getElem?_append_left (List.getElem?_eq_some_iff.mp hget).1]
      exact hget

theorem Claims.put {w slot : Nat} {after : Task}
    (htask : t i = .put w slot after) (hafter : after.Plain) :
    ∃ spare', storeCell spare slot w = some spare' ∧
      Claims level d n (update t i after) order spare' := by
  have hadds : (t i).adds = none := by rw [htask]; rfl
  have hputs : (t i).puts = some (w, slot) := by rw [htask]; rfl
  have hslot := h.puts i hi w slot hputs
  have hroom : slot < spare.length := by
    have hle := length_le_of_nodup h.nodup h.lt_of_mem
    have hlt := (List.getElem?_eq_some_iff.mp hslot).1
    rw [h.size]
    omega
  refine ⟨_, if_pos hroom, h.moves hi hadds hafter ?_ (by rw [length_set, h.size])⟩
  intro k v hget
  by_cases hk : k = slot
  · rw [hk, hslot] at hget
    rw [hk, getElem?_set_self hroom, hget]
    exact .inl rfl
  · rw [getElem?_set_ne (Ne.symm hk)]
    rcases h.slots k v hget with hold | ⟨j, hj, hputs'⟩
    · exact .inl hold
    · have hji : j ≠ i := by
        intro heq
        rw [heq, hputs] at hputs'
        exact hk (Prod.mk.inj (some.inj hputs')).2.symm
      exact .inr ⟨j, hj, by rw [update_of_ne hji]; exact hputs'⟩

end

/-- When every task is done, the list holds the vertices of the next distance, each once. -/
theorem Claims.listed (hdone : ∀ i < n, t i = .done) :
    spare.take order.length = order ∧ ∀ v < kVertices, v ∈ order ↔ d v = level + 1 := by
  constructor
  · apply ext_getElem?
    intro k
    by_cases hk : k < order.length
    · have hget : order[k]? = some order[k] := getElem?_eq_getElem hk
      rw [getElem?_take_of_lt hk]
      rcases h.slots k _ hget with hslot | ⟨i, hi, hputs⟩
      · rw [hslot, hget]
      · rw [hdone i hi] at hputs
        exact absurd hputs (some_ne_none _).symm
    · rw [getElem?_eq_none (by rw [length_take]; omega), getElem?_eq_none (by omega)]
  · intro v hv
    rw [h.claimed v hv]
    constructor
    · exact Or.inl
    · rintro (hmem | ⟨i, hi, hadds⟩)
      · exact hmem
      · rw [hdone i hi] at hadds
        exact absurd hadds (some_ne_none v).symm

end Claims

end LoadForge.Workloads.Graph
