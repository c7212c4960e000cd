import Mathlib
import LoadForge.Workloads.AdaptiveMesh

namespace LoadForge.Verification.AdaptiveMesh

open Framework Workloads.AdaptiveMesh

/-- The hotspots that lie inside a cell: the only ones that can make a cell under it split. -/
def hotspotsIn (cell : Cell) (all : List Hotspot) : List Hotspot :=
  all.filter fun hotspot => cellContains cell hotspot

theorem level_lt_of_splits {cell : Cell} {inside : List Hotspot} (h : splits cell inside = true) :
    cell.level < kMaxLevel := by
  rw [splits, Bool.and_eq_true, decide_eq_true_iff] at h
  exact h.1

/-- The leaves under a cell in the order they are visited. -/
def forEachLeaf (cell : Cell) (inside : List Hotspot) : List Cell :=
  if _h : splits cell inside = true then
    forEachLeaf (child cell 0) inside ++ forEachLeaf (child cell 1) inside ++
      forEachLeaf (child cell 2) inside ++ forEachLeaf (child cell 3) inside
  else [cell]
termination_by kMaxLevel - cell.level
decreasing_by
  all_goals
    have hlevel := level_lt_of_splits _h
    simp only [child]
    omega

/-- The leaves of a coarse cell, counted in 32 bits. -/
def leafCount (cell : Nat) (all : List Hotspot) : Nat :=
  (forEachLeaf (coarseCell cell) (hotspotsIn (coarseCell cell) all)).length % 2 ^ 32

theorem forEachLeaf_split {cell : Cell} {inside : List Hotspot} (h : splits cell inside = true) :
    forEachLeaf cell inside = forEachLeaf (child cell 0) inside ++ forEachLeaf (child cell 1) inside ++
      forEachLeaf (child cell 2) inside ++ forEachLeaf (child cell 3) inside := by
  rw [forEachLeaf, dif_pos h]

theorem forEachLeaf_leaf {cell : Cell} {inside : List Hotspot} (h : splits cell inside = false) :
    forEachLeaf cell inside = [cell] := by
  rw [forEachLeaf, dif_neg (by rw [h]; exact Bool.false_ne_true)]

/-- Induction over the cells of a mesh, from the children of a cell to the cell. -/
theorem mesh_induction (inside : List Hotspot) {P : Cell → Prop}
    (leaf : ∀ cell, splits cell inside = false → P cell)
    (split : ∀ cell, splits cell inside = true → (∀ q < 4, P (child cell q)) → P cell)
    (cell : Cell) : P cell := by
  have hdepth : ∀ depth cell, kMaxLevel - cell.level ≤ depth → P cell := by
    intro depth
    induction depth with
    | zero =>
      intro cell hdepth
      apply leaf
      rw [splits, Bool.and_eq_false_iff, decide_eq_false_iff_not]
      exact Or.inl (by omega)
    | succ depth ih =>
      intro cell hdepth
      cases hsplits : splits cell inside with
      | false => exact leaf cell hsplits
      | true =>
        apply split cell hsplits
        intro q _
        apply ih
        show kMaxLevel - (cell.level + 1) ≤ depth
        omega
  exact hdepth _ cell (Nat.le_refl _)

theorem not_splits_of_mem (inside : List Hotspot) (cell : Cell) :
    ∀ leaf ∈ forEachLeaf cell inside, splits leaf inside = false := by
  induction cell using mesh_induction inside with
  | leaf cell h =>
    rw [forEachLeaf_leaf h]
    intro leaf hmem
    rw [List.mem_singleton.mp hmem]
    exact h
  | split cell h ih =>
    rw [forEachLeaf_split h]
    intro leaf hmem
    simp only [List.mem_append] at hmem
    rcases hmem with ((hmem | hmem) | hmem) | hmem
    · exact ih 0 (by decide) leaf hmem
    · exact ih 1 (by decide) leaf hmem
    · exact ih 2 (by decide) leaf hmem
    · exact ih 3 (by decide) leaf hmem

def region (cell : Cell) : Set (ℝ × ℝ) :=
  { p | (cell.ix ≤ p.1 * 2 ^ cell.level ∧ p.1 * 2 ^ cell.level < cell.ix + 1) ∧
    cell.iy ≤ p.2 * 2 ^ cell.level ∧ p.2 * 2 ^ cell.level < cell.iy + 1 }

/-- Cells that cover a region, no two of them any point in common. -/
structure Tiles (cells : List Cell) (whole : Set (ℝ × ℝ)) : Prop where
  disjoint : cells.Pairwise fun one other => Disjoint (region one) (region other)
  union : ∀ p, p ∈ whole ↔ ∃ cell ∈ cells, p ∈ region cell

theorem tiles_singleton (cell : Cell) : Tiles [cell] (region cell) := by
  refine ⟨List.pairwise_singleton _ _, ?_⟩
  intro p
  simp

theorem tiles_append {front back : List Cell} {one other : Set (ℝ × ℝ)} (h : Tiles front one)
    (h' : Tiles back other) (hd : Disjoint one other) : Tiles (front ++ back) (one ∪ other) := by
  refine ⟨List.pairwise_append.mpr ⟨h.disjoint, h'.disjoint, ?_⟩, ?_⟩
  · intro cell hcell cell' hcell'
    apply hd.mono
    · intro p hp
      exact (h.union p).mpr ⟨cell, hcell, hp⟩
    · intro p hp
      exact (h'.union p).mpr ⟨cell', hcell', hp⟩
  · intro p
    rw [Set.mem_union, h.union, h'.union]
    simp only [List.mem_append]
    constructor
    · intro hor
      rcases hor with ⟨cell, hcell, hp⟩ | ⟨cell, hcell, hp⟩
      · exact ⟨cell, Or.inl hcell, hp⟩
      · exact ⟨cell, Or.inr hcell, hp⟩
    · intro hexists
      obtain ⟨cell, hcell | hcell, hp⟩ := hexists
      · exact Or.inl ⟨cell, hcell, hp⟩
      · exact Or.inr ⟨cell, hcell, hp⟩

/-- A point of a cell along one axis, at the level below. -/
def Half (i bit : Nat) (t : ℝ) : Prop := (2 * i + bit : ℕ) ≤ t ∧ t < (2 * i + bit : ℕ) + 1

theorem mem_region_child (cell : Cell) (q : Nat) (p : ℝ × ℝ) :
    p ∈ region (child cell q) ↔ Half cell.ix (q &&& 1) (p.1 * 2 ^ cell.level * 2) ∧
      Half cell.iy (q >>> 1) (p.2 * 2 ^ cell.level * 2) := by
  have hpow : ∀ t : ℝ, t * 2 ^ (cell.level + 1) = t * 2 ^ cell.level * 2 := by
    intro t
    ring
  simp [region, child, Half, hpow]

theorem half_or (i : Nat) (t : ℝ) : (i ≤ t ∧ t < i + 1) ↔ Half i 0 (t * 2) ∨ Half i 1 (t * 2) := by
  simp only [Half]
  push_cast
  constructor
  · intro h
    by_cases hhalf : t * 2 < 2 * i + 1
    · left
      constructor <;> linarith [h.1, h.2]
    · right
      constructor <;> linarith [h.1, h.2]
  · intro h
    rcases h with h | h
    · constructor <;> linarith [h.1, h.2]
    · constructor <;> linarith [h.1, h.2]

theorem not_half_both (i : Nat) (t : ℝ) : ¬(Half i 0 t ∧ Half i 1 t) := by
  intro h
  have hone := h.1.2
  have htwo := h.2.1
  push_cast at hone htwo
  linarith

theorem region_children (cell : Cell) :
    region cell = region (child cell 0) ∪ region (child cell 1) ∪ region (child cell 2) ∪
      region (child cell 3) := by
  ext p
  have hx := half_or cell.ix (p.1 * 2 ^ cell.level)
  have hy := half_or cell.iy (p.2 * 2 ^ cell.level)
  simp only [Set.mem_union, mem_region_child]
  rw [region, Set.mem_ofPred_eq, hx, hy]
  show _ ↔ (((Half cell.ix 0 _ ∧ Half cell.iy 0 _) ∨ (Half cell.ix 1 _ ∧ Half cell.iy 0 _)) ∨
    (Half cell.ix 0 _ ∧ Half cell.iy 1 _)) ∨ (Half cell.ix 1 _ ∧ Half cell.iy 1 _)
  tauto

theorem children_disjoint (cell : Cell) {q q' : Nat}
    (h : (q &&& 1 = 0 ∧ q' &&& 1 = 1) ∨ (q >>> 1 = 0 ∧ q' >>> 1 = 1) ∨
      (q &&& 1 = 1 ∧ q' &&& 1 = 0)) :
    Disjoint (region (child cell q)) (region (child cell q')) := by
  rw [Set.disjoint_left]
  intro p hp hp'
  rw [mem_region_child] at hp hp'
  rcases h with ⟨hq, hq'⟩ | ⟨hq, hq'⟩ | ⟨hq, hq'⟩
  · rw [hq] at hp
    rw [hq'] at hp'
    exact not_half_both _ _ ⟨hp.1, hp'.1⟩
  · rw [hq] at hp
    rw [hq'] at hp'
    exact not_half_both _ _ ⟨hp.2, hp'.2⟩
  · rw [hq] at hp
    rw [hq'] at hp'
    exact not_half_both _ _ ⟨hp'.1, hp.1⟩

theorem forEachLeaf_tiles (inside : List Hotspot) (cell : Cell) :
    Tiles (forEachLeaf cell inside) (region cell) := by
  induction cell using mesh_induction inside with
  | leaf cell h =>
    rw [forEachLeaf_leaf h]
    exact tiles_singleton cell
  | split cell h ih =>
    rw [forEachLeaf_split h, region_children]
    refine tiles_append (tiles_append (tiles_append (ih 0 (by decide)) (ih 1 (by decide)) ?_)
      (ih 2 (by decide)) ?_) (ih 3 (by decide)) ?_
    · exact children_disjoint cell (by decide)
    · rw [Set.disjoint_union_left]
      exact ⟨children_disjoint cell (by decide), children_disjoint cell (by decide)⟩
    · rw [Set.disjoint_union_left, Set.disjoint_union_left]
      exact ⟨⟨children_disjoint cell (by decide), children_disjoint cell (by decide)⟩,
        children_disjoint cell (by decide)⟩

end LoadForge.Verification.AdaptiveMesh
