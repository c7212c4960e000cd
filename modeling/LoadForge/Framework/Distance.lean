import Mathlib.Data.List.Nodup
import Mathlib.Tactic.Ring

namespace LoadForge.Framework

variable {V : Type} {edge : V → V → Prop} {source : V}

/-- The places that a path of so many edges leads to. -/
inductive Steps (edge : V → V → Prop) (source : V) : Nat → V → Prop
  | start : Steps edge source 0 source
  | follow {n : Nat} {u v : V} : Steps edge source n u → edge u v → Steps edge source (n + 1) v

/-- The distance of a place: so many edges lead to it, and no fewer. -/
structure IsDist (edge : V → V → Prop) (source : V) (n : Nat) (v : V) : Prop where
  reached : Steps edge source n v
  least : ∀ m < n, ¬Steps edge source m v

theorem IsDist.unique {n m : Nat} {v : V} (h : IsDist edge source n v)
    (h' : IsDist edge source m v) : n = m := by
  rcases Nat.lt_trichotomy n m with hlt | heq | hgt
  · exact absurd h.reached (h'.least n hlt)
  · exact heq
  · exact absurd h'.reached (h.least m hgt)

theorem exists_isDist {n : Nat} {v : V} (h : Steps edge source n v) :
    ∃ m ≤ n, IsDist edge source m v := by
  classical
  have hexists : ∃ m, Steps edge source m v := ⟨n, h⟩
  refine ⟨Nat.find hexists, Nat.find_min' hexists h, Nat.find_spec hexists, ?_⟩
  intro m hm
  exact Nat.find_min hexists hm

theorem isDist_zero_iff {v : V} : IsDist edge source 0 v ↔ v = source := by
  constructor
  · intro h
    cases h.reached
    rfl
  · rintro rfl
    exact ⟨.start, fun m hm => absurd hm (Nat.not_lt_zero m)⟩

/-- A place is one step farther when an edge leads to it from there and none from nearer. -/
theorem isDist_succ_iff {n : Nat} {v : V} : IsDist edge source (n + 1) v ↔
    (∃ u, IsDist edge source n u ∧ edge u v) ∧ ∀ m ≤ n, ¬IsDist edge source m v := by
  constructor
  · intro h
    have hnone : ∀ m ≤ n, ¬IsDist edge source m v :=
      fun m hm hdist => h.least m (Nat.lt_succ_of_le hm) hdist.reached
    cases h.reached with
    | follow hsteps hedge =>
      rename_i u
      obtain ⟨m, hm, hdist⟩ := exists_isDist hsteps
      rcases Nat.lt_or_eq_of_le hm with hlt | heq
      · exact absurd (Steps.follow hdist.reached hedge) (h.least (m + 1) (by omega))
      · exact ⟨⟨u, heq ▸ hdist, hedge⟩, hnone⟩
  · intro h
    obtain ⟨⟨u, hu, hedge⟩, hnone⟩ := h
    refine ⟨.follow hu.reached hedge, ?_⟩
    intro m hm hsteps
    obtain ⟨k, hk, hdist⟩ := exists_isDist hsteps
    exact hnone k (by omega) hdist

theorem IsDist.exists_path {n : Nat} {v : V} (h : IsDist edge source n v) :
    ∃ path : List V, path.length = n + 1 ∧ path.Nodup ∧
      ∀ u ∈ path, ∃ m ≤ n, IsDist edge source m u := by
  induction n generalizing v with
  | zero =>
    refine ⟨[v], rfl, List.nodup_singleton v, ?_⟩
    intro u hu
    rw [List.mem_singleton.mp hu]
    exact ⟨0, Nat.le_refl 0, h⟩
  | succ n ih =>
    obtain ⟨⟨u, hu, _⟩, hnone⟩ := isDist_succ_iff.mp h
    obtain ⟨path, hlength, hnodup, hpath⟩ := ih hu
    refine ⟨path.concat v, ?_, ?_, ?_⟩
    · rw [List.length_concat, hlength]
    · apply hnodup.concat
      intro hmem
      obtain ⟨m, hm, hdist⟩ := hpath v hmem
      exact hnone m hm hdist
    · intro w hw
      rw [List.concat_eq_append, List.mem_append, List.mem_singleton] at hw
      rcases hw with hw | hw
      · obtain ⟨m, hm, hdist⟩ := hpath w hw
        exact ⟨m, Nat.le_succ_of_le hm, hdist⟩
      · rw [hw]
        exact ⟨n + 1, Nat.le_refl _, h⟩

end LoadForge.Framework
