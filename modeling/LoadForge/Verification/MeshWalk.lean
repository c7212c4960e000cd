import LoadForge.Verification.AdaptiveMeshOracle

namespace LoadForge.Verification.AdaptiveMesh

open Framework Workloads.AdaptiveMesh List Option

structure Under (coarse cell : Cell) : Prop where
  above : coarse.level ≤ cell.level
  within : cell.level ≤ kMaxLevel
  ix : cell.ix / 2 ^ (cell.level - coarse.level) = coarse.ix
  iy : cell.iy / 2 ^ (cell.level - coarse.level) = coarse.iy

theorem under_self {cell : Cell} (h : cell.level ≤ kMaxLevel) : Under cell cell := by
  refine ⟨Nat.le_refl _, h, ?_, ?_⟩
  · simp
  · simp

theorem bits_of_child {q : Nat} (hq : q < 4) : q &&& 1 < 2 ∧ q >>> 1 < 2 := by
  rw [Nat.and_one_is_mod, Nat.shiftRight_eq_div_pow]
  omega

section

variable {coarse cell : Cell} (h : Under coarse cell)
include h

theorem under_child (hl : cell.level < kMaxLevel)
    {q : Nat} (hq : q < 4) : Under coarse (child cell q) := by
  have habove := h.above
  have hpow : 2 ^ (cell.level + 1 - coarse.level) = 2 * 2 ^ (cell.level - coarse.level) := by
    rw [Nat.succ_sub habove, Nat.pow_succ, Nat.mul_comm]
  obtain ⟨hx, hy⟩ := bits_of_child hq
  refine ⟨?_, hl, ?_, ?_⟩
  · show coarse.level ≤ cell.level + 1
    omega
  · show (2 * cell.ix + (q &&& 1)) / 2 ^ (cell.level + 1 - coarse.level) = coarse.ix
    rw [hpow, ← Nat.div_div_eq_div_mul, ← h.ix]
    congr 1
    omega
  · show (2 * cell.iy + (q >>> 1)) / 2 ^ (cell.level + 1 - coarse.level) = coarse.iy
    rw [hpow, ← Nat.div_div_eq_div_mul, ← h.iy]
    congr 1
    omega

omit h in
theorem under_of_mem (inside : List Hotspot) (coarse cell : Cell) (h : Under coarse cell) :
    ∀ leaf ∈ forEachLeaf cell inside, Under coarse leaf := by
  induction cell using mesh_induction inside with
  | leaf cell hleaf =>
    rw [forEachLeaf_leaf hleaf]
    intro leaf hmem
    rw [mem_singleton.mp hmem]
    exact h
  | split cell hsplit ih =>
    have hchild : ∀ q < 4, Under coarse (child cell q) :=
      fun q hq => under_child h (level_lt_of_splits hsplit) hq
    rw [forEachLeaf_split hsplit]
    intro leaf hmem
    simp only [mem_append] at hmem
    rcases hmem with ((hmem | hmem) | hmem) | hmem
    · exact ih 0 (by decide) (hchild 0 (by decide)) leaf hmem
    · exact ih 1 (by decide) (hchild 1 (by decide)) leaf hmem
    · exact ih 2 (by decide) (hchild 2 (by decide)) leaf hmem
    · exact ih 3 (by decide) (hchild 3 (by decide)) leaf hmem

omit h in
theorem cellContains_iff (cell : Cell) (hotspot : Hotspot) : cellContains cell hotspot = true ↔
    hotspot.x / 2 ^ (kMaxLevel - cell.level) = cell.ix ∧
      hotspot.y / 2 ^ (kMaxLevel - cell.level) = cell.iy := by
  rw [cellContains, Bool.and_eq_true, beq_iff_eq, beq_iff_eq, Nat.shiftRight_eq_div_pow,
    Nat.shiftRight_eq_div_pow]

theorem contains_of_under {hotspot : Hotspot}
    (hc : cellContains cell hotspot = true) : cellContains coarse hotspot = true := by
  have habove := h.above
  have hwithin := h.within
  have hpow : 2 ^ (kMaxLevel - coarse.level) =
      2 ^ (kMaxLevel - cell.level) * 2 ^ (cell.level - coarse.level) := by
    rw [← Nat.pow_add]
    congr 1
    omega
  rw [cellContains_iff] at hc ⊢
  rw [hpow, ← Nat.div_div_eq_div_mul, ← Nat.div_div_eq_div_mul, hc.1, hc.2]
  exact ⟨h.ix, h.iy⟩

theorem splits_hotspotsIn (all : List Hotspot) :
    splits cell (hotspotsIn coarse all) = splits cell all := by
  have hany : ((hotspotsIn coarse all).any fun hotspot => cellContains cell hotspot) =
      all.any fun hotspot => cellContains cell hotspot := by
    rw [Bool.eq_iff_iff, List.any_eq_true, List.any_eq_true]
    constructor
    · intro hexists
      obtain ⟨hotspot, hmem, hc⟩ := hexists
      exact ⟨hotspot, mem_of_mem_filter hmem, hc⟩
    · intro hexists
      obtain ⟨hotspot, hmem, hc⟩ := hexists
      exact ⟨hotspot, mem_filter.mpr ⟨hmem, contains_of_under h hc⟩, hc⟩
  rw [splits, splits, hany]

end

theorem forEachLeaf_hotspotsIn (all : List Hotspot) (coarse cell : Cell) (h : Under coarse cell) :
    forEachLeaf cell (hotspotsIn coarse all) = forEachLeaf cell all := by
  induction cell using mesh_induction all with
  | leaf cell hleaf =>
    rw [forEachLeaf_leaf hleaf, forEachLeaf_leaf (by rw [splits_hotspotsIn h]; exact hleaf)]
  | split cell hsplit ih =>
    have hchild : ∀ q < 4, Under coarse (child cell q) :=
      fun q hq => under_child h (level_lt_of_splits hsplit) hq
    rw [forEachLeaf_split hsplit, forEachLeaf_split (by rw [splits_hotspotsIn h]; exact hsplit),
      ih 0 (by decide) (hchild 0 (by decide)), ih 1 (by decide) (hchild 1 (by decide)),
      ih 2 (by decide) (hchild 2 (by decide)), ih 3 (by decide) (hchild 3 (by decide))]

def held (cell : Cell) (hotspots : List Hotspot) : Nat :=
  hotspots.countP fun hotspot => cellContains cell hotspot

theorem contains_children {cell : Cell} (hl : cell.level < kMaxLevel) (hotspot : Hotspot) :
    (if cellContains (child cell 0) hotspot then 1 else 0) +
      (if cellContains (child cell 1) hotspot then 1 else 0) +
      (if cellContains (child cell 2) hotspot then 1 else 0) +
      (if cellContains (child cell 3) hotspot then 1 else 0) =
      if cellContains cell hotspot then 1 else 0 := by
  have hpow : 2 ^ (kMaxLevel - cell.level) = 2 ^ (kMaxLevel - (cell.level + 1)) * 2 := by
    rw [← Nat.pow_succ]
    congr 1
    omega
  simp only [cellContains_iff, child]
  rw [hpow, ← Nat.div_div_eq_div_mul, ← Nat.div_div_eq_div_mul]
  generalize hotspot.x / 2 ^ (kMaxLevel - (cell.level + 1)) = x
  generalize hotspot.y / 2 ^ (kMaxLevel - (cell.level + 1)) = y
  simp only [Nat.zero_and, Nat.zero_shiftRight, Nat.add_zero,
    (by decide : (1 : Nat) &&& 1 = 1), (by decide : (1 : Nat) >>> 1 = 0),
    (by decide : (2 : Nat) &&& 1 = 0), (by decide : (2 : Nat) >>> 1 = 1),
    (by decide : (3 : Nat) &&& 1 = 1), (by decide : (3 : Nat) >>> 1 = 1)]
  split_ifs <;> omega

theorem held_children {cell : Cell} (hl : cell.level < kMaxLevel) (hotspots : List Hotspot) :
    held (child cell 0) hotspots + held (child cell 1) hotspots + held (child cell 2) hotspots +
      held (child cell 3) hotspots = held cell hotspots := by
  induction hotspots with
  | nil => rfl
  | cons hotspot hotspots ih =>
    have hone := contains_children hl hotspot
    simp only [held, countP_cons] at ih ⊢
    omega

variable {hotspots : List Hotspot}

theorem held_pos_of_splits {cell : Cell} (h : splits cell hotspots = true) :
    0 < held cell hotspots := by
  rw [splits, Bool.and_eq_true, List.any_eq_true] at h
  exact countP_pos_iff.mpr h.2

theorem leaves_le (hotspots : List Hotspot) (cell : Cell) :
    (forEachLeaf cell hotspots).length ≤
      1 + 3 * (held cell hotspots * (kMaxLevel - cell.level)) := by
  induction cell using mesh_induction hotspots with
  | leaf cell h =>
    rw [forEachLeaf_leaf h, length_singleton]
    exact Nat.le_add_right _ _
  | split cell h ih =>
    have hlevel := level_lt_of_splits h
    have hpos := held_pos_of_splits h
    have hheld := held_children hlevel hotspots
    have hdepth : kMaxLevel - cell.level = kMaxLevel - (cell.level + 1) + 1 := by omega
    have hsum : held cell hotspots * (kMaxLevel - cell.level) =
        held (child cell 0) hotspots * (kMaxLevel - (cell.level + 1)) +
          held (child cell 1) hotspots * (kMaxLevel - (cell.level + 1)) +
          held (child cell 2) hotspots * (kMaxLevel - (cell.level + 1)) +
          held (child cell 3) hotspots * (kMaxLevel - (cell.level + 1)) + held cell hotspots := by
      rw [hdepth, Nat.mul_succ, ← hheld, Nat.add_mul, Nat.add_mul, Nat.add_mul]
    have h0 := ih 0 (by decide)
    have h1 := ih 1 (by decide)
    have h2 := ih 2 (by decide)
    have h3 := ih 3 (by decide)
    simp only [child] at h0 h1 h2 h3 hsum ⊢
    rw [forEachLeaf_split h, length_append, length_append, length_append]
    simp only [child]
    omega

theorem forEachLeaf_pos (inside : List Hotspot) (cell : Cell) :
    0 < (forEachLeaf cell inside).length := by
  induction cell using mesh_induction inside with
  | leaf cell h =>
    rw [forEachLeaf_leaf h]
    exact Nat.one_pos
  | split cell h ih =>
    have hfirst := ih 0 (by decide)
    rw [forEachLeaf_split h, length_append, length_append, length_append]
    omega

theorem coarse_within (c : Nat) : (coarseCell c).level ≤ kMaxLevel :=
  (by decide : kBaseLevel ≤ kMaxLevel)

theorem coarse_unique {hotspot : Hotspot} {c c' : Nat}
    (h : cellContains (coarseCell c) hotspot = true)
    (h' : cellContains (coarseCell c') hotspot = true) : c = c' := by
  rw [cellContains_iff] at h h'
  have hx : c % 16 = c' % 16 := h.1.symm.trans h'.1
  have hy : c / 16 = c' / 16 := h.2.symm.trans h'.2
  omega

/-- The hotspots in the first coarse cells, added up. -/
def heldBefore (hotspots : List Hotspot) (n : Nat) : Nat :=
  ((List.range n).map fun c => held (coarseCell c) hotspots).sum

theorem heldBefore_succ (hotspots : List Hotspot) (n : Nat) :
    heldBefore hotspots (n + 1) = heldBefore hotspots n + held (coarseCell n) hotspots := by
  rw [heldBefore, range_succ, map_append, sum_append]
  rfl

theorem heldBefore_nil (n : Nat) : heldBefore [] n = 0 := by
  induction n with
  | zero => rfl
  | succ n ih => rw [heldBefore_succ, ih, held, countP_nil]

theorem heldBefore_cons (hotspot : Hotspot) (hotspots : List Hotspot) (n : Nat) :
    heldBefore (hotspot :: hotspots) n = heldBefore hotspots n + heldBefore [hotspot] n := by
  induction n with
  | zero => rfl
  | succ n ih =>
    rw [heldBefore_succ, heldBefore_succ, heldBefore_succ, ih]
    simp only [held, countP_cons, countP_nil]
    omega

theorem heldBefore_singleton (hotspot : Hotspot) (n : Nat) : heldBefore [hotspot] n = 0 ∨
    heldBefore [hotspot] n = 1 ∧ ∃ c < n, cellContains (coarseCell c) hotspot = true := by
  induction n with
  | zero => exact .inl rfl
  | succ n ih =>
    rw [heldBefore_succ, held, countP_singleton]
    by_cases hn : cellContains (coarseCell n) hotspot = true
    · rw [if_pos hn]
      rcases ih with hzero | ⟨_, c, hc, hcontains⟩
      · exact .inr ⟨by omega, n, Nat.lt_succ_self n, hn⟩
      · have heq := coarse_unique hcontains hn
        omega
    · rw [if_neg hn]
      rcases ih with hzero | ⟨hone, c, hc, hcontains⟩
      · exact .inl hzero
      · exact .inr ⟨hone, c, Nat.lt_succ_of_lt hc, hcontains⟩

theorem heldBefore_le (hotspots : List Hotspot) (n : Nat) :
    heldBefore hotspots n ≤ hotspots.length := by
  induction hotspots with
  | nil => exact Nat.le_of_eq (heldBefore_nil n)
  | cons hotspot hotspots ih =>
    have hfirst := heldBefore_singleton hotspot n
    rw [heldBefore_cons, length_cons]
    omega

/-- The leaves of the first coarse cells, in the table's order. -/
def leavesBefore (hotspots : List Hotspot) (n : Nat) : List Leaf :=
  (List.range n).flatMap fun c => (forEachLeaf (coarseCell c) hotspots).map (Leaf.pack c)

theorem leavesBefore_succ (hotspots : List Hotspot) (n : Nat) :
    leavesBefore hotspots (n + 1) = leavesBefore hotspots n ++
      (forEachLeaf (coarseCell n) hotspots).map (Leaf.pack n) := by
  rw [leavesBefore, range_succ, flatMap_append]
  simp [leavesBefore]

theorem leavesBefore_le (hotspots : List Hotspot) (n : Nat) :
    (leavesBefore hotspots n).length ≤ n + 15 * heldBefore hotspots n := by
  induction n with
  | zero => exact Nat.le_refl _
  | succ n ih =>
    have hcell := leaves_le hotspots (coarseCell n)
    have hdepth : kMaxLevel - (coarseCell n).level = 5 := rfl
    rw [hdepth] at hcell
    rw [leavesBefore_succ, length_append, length_map, heldBefore_succ]
    omega

theorem leavesBefore_le_kMaxLeaves (h : hotspots.length = kHotspots) {n : Nat}
    (hn : n ≤ kCoarseCells) : (leavesBefore hotspots n).length ≤ kMaxLeaves := by
  have hleaves := leavesBefore_le hotspots n
  have hheld := heldBefore_le hotspots n
  rw [h] at hheld
  have hcells : kCoarseCells = 256 := rfl
  have hspots : kHotspots = 256 := rfl
  have hmax : kMaxLeaves = 4096 := rfl
  omega

/-- A stack, top first, with room for the children of every cell on it. -/
def Fits : List Cell → Prop
  | [] => True
  | cell :: rest => rest.length ≤ 3 * (cell.level - kBaseLevel) ∧ kBaseLevel ≤ cell.level ∧
    cell.level ≤ kMaxLevel ∧ Fits rest

theorem fits_children {cell : Cell} {rest : List Cell} (h : Fits (cell :: rest))
    (hl : cell.level < kMaxLevel) :
    Fits (child cell 0 :: child cell 1 :: child cell 2 :: child cell 3 :: rest) := by
  obtain ⟨hroom, hbase, _, hrest⟩ := h
  simp only [Fits, child, length_cons]
  refine ⟨by omega, by omega, by omega, by omega, by omega, by omega, by omega, by omega, by omega,
    by omega, by omega, by omega, hrest⟩

def visits (hotspots : List Hotspot) (stack : List Cell) : Nat :=
  (stack.map fun cell => 2 * (forEachLeaf cell hotspots).length - 1).sum

theorem walk_nil (hotspots : List Hotspot) (cell fuel : Nat) (pending : Output Cell)
    (leaves : Output Leaf) (h : pending.used = 0) :
    walk hotspots cell fuel pending leaves = some leaves := by
  unfold walk
  rw [if_pos h]

theorem walk_split {cell fuel : Nat} {pending popped pushed : Output Cell} {leaves : Output Leaf}
    {top : Cell} (h : pending.used ≠ 0)
    (hpop : pending.pop = some (top, popped)) (hsplits : splits top hotspots = true)
    (hpush : [3, 2, 1, 0].foldlM (fun pending q => pending.put (child top q)) popped = some pushed) :
    walk hotspots cell (fuel + 1) pending leaves = walk hotspots cell fuel pushed leaves := by
  conv_lhs => unfold walk
  simp only [if_neg h, hpop, bind_eq_bind, bind_some, if_pos hsplits, hpush]

theorem walk_leaf {cell fuel : Nat} {pending popped : Output Cell} {leaves leaves' : Output Leaf}
    {top : Cell} (h : pending.used ≠ 0)
    (hpop : pending.pop = some (top, popped)) (hsplits : splits top hotspots = false)
    (hput : leaves.put (Leaf.pack cell top) = some leaves') :
    walk hotspots cell (fuel + 1) pending leaves = walk hotspots cell fuel popped leaves' := by
  conv_lhs => unfold walk
  simp only [if_neg h, hpop, bind_eq_bind, bind_some, hsplits, Bool.false_eq_true, if_false, hput]

theorem push_children (pending : Output Cell) (top : Cell)
    (h : pending.used + 4 ≤ pending.buffer.length) :
    ∃ pending', [3, 2, 1, 0].foldlM (fun pending q => pending.put (child top q)) pending =
        some pending' ∧
      pending.Wrote [child top 3, child top 2, child top 1, child top 0] pending' := by
  have hputs : [3, 2, 1, 0].foldlM (fun pending q => pending.put (child top q)) pending =
      pending.puts [child top 3, child top 2, child top 1, child top 0] := by
    simp [Output.puts]
  rw [hputs]
  exact Output.puts_wrote pending _ h

theorem walk_spec (hotspots : List Hotspot) (cell : Nat) (fuel : Nat) (stack : List Cell)
    (pending : Output Cell) (leaves : Output Leaf) (hp : pending.written = stack.reverse)
    (hu : pending.used = stack.length) (hb : pending.buffer.length = kStackCells)
    (hfits : Fits stack) (hfuel : visits hotspots stack ≤ fuel)
    (hroom : leaves.used + (stack.flatMap fun c => forEachLeaf c hotspots).length ≤
      leaves.buffer.length) :
    ∃ leaves', walk hotspots cell fuel pending leaves = some leaves' ∧
      leaves.Wrote ((stack.flatMap fun c => forEachLeaf c hotspots).map (Leaf.pack cell)) leaves' := by
  induction fuel generalizing stack pending leaves with
  | zero =>
    cases stack with
    | nil => exact ⟨leaves, walk_nil _ _ _ _ _ hu, .refl leaves⟩
    | cons top rest =>
      have hpos := forEachLeaf_pos hotspots top
      rw [visits, map_cons, sum_cons] at hfuel
      omega
  | succ fuel ih =>
    cases stack with
    | nil => exact ⟨leaves, walk_nil _ _ _ _ _ hu, .refl leaves⟩
    | cons top rest =>
      obtain ⟨hdepth, hbase, hmax, hrest⟩ := hfits
      have hstack : kStackCells = 16 := rfl
      have hbaseLevel : kBaseLevel = 4 := rfl
      have hmaxLevel : kMaxLevel = 9 := rfl
      rw [length_cons] at hu
      rw [reverse_cons] at hp
      obtain ⟨pending', hpop, hwritten, hused, hsize⟩ := Output.pop_written hp (by omega)
      rw [length_reverse] at hused
      cases hsplits : splits top hotspots with
      | true =>
        have hlevel := level_lt_of_splits hsplits
        obtain ⟨pending'', hpush, hwrote⟩ := push_children pending' top (by omega)
        have hflat : (top :: rest).flatMap (fun c => forEachLeaf c hotspots) =
            (child top 0 :: child top 1 :: child top 2 :: child top 3 :: rest).flatMap
              fun c => forEachLeaf c hotspots := by
          simp [forEachLeaf_split hsplits]
        rw [walk_split (by omega) hpop hsplits hpush, hflat]
        rw [hflat] at hroom
        apply ih
        · rw [hwrote.written, hwritten]
          simp
        · rw [hwrote.used, hused]
          simp
        · rw [hwrote.size, hsize, hb]
        · exact fits_children ⟨hdepth, hbase, hmax, hrest⟩ hlevel
        · have h0 := forEachLeaf_pos hotspots (child top 0)
          have h3 := forEachLeaf_pos hotspots (child top 3)
          simp [visits, forEachLeaf_split hsplits] at hfuel ⊢
          omega
        · exact hroom
      | false =>
        simp only [flatMap_cons, forEachLeaf_leaf hsplits, cons_append, nil_append,
          length_cons, map_cons] at hroom ⊢
        obtain ⟨leaves', hput, hwrote⟩ := Output.put_wrote leaves (Leaf.pack cell top) (by omega)
        rw [walk_leaf (by omega) hpop hsplits hput]
        have hused' : leaves'.used = leaves.used + 1 := hwrote.used
        have hsize' := hwrote.size
        obtain ⟨leaves'', hwalk, hmore⟩ := ih rest pending' leaves' hwritten hused
          (hsize.trans hb) hrest (by
            simp only [visits, map_cons, sum_cons, forEachLeaf_leaf hsplits,
              length_singleton] at hfuel ⊢
            omega) (by omega)
        exact ⟨leaves'', hwalk, hwrote.trans hmore⟩

theorem visits_coarse_le (h : hotspots.length = kHotspots) {c : Nat} (hc : c < kCoarseCells) :
    visits hotspots [coarseCell c] ≤ 2 * kMaxLeaves := by
  have hleaves := leavesBefore_le_kMaxLeaves h (Nat.succ_le_of_lt hc)
  rw [leavesBefore_succ, length_append, length_map] at hleaves
  simp [visits]
  omega

theorem buildCell_spec {fuel c : Nat} {leaves : Output Leaf} {counts : List Nat}
    (hfuel : visits hotspots [coarseCell c] ≤ fuel) (hc : c < counts.length)
    (hroom : leaves.used + (forEachLeaf (coarseCell c) hotspots).length ≤ leaves.buffer.length) :
    ∃ leaves', buildCell fuel hotspots (leaves, counts) c =
        some (leaves', counts.set c ((forEachLeaf (coarseCell c) hotspots).length % 2 ^ 32)) ∧
      leaves.Wrote ((forEachLeaf (coarseCell c) hotspots).map (Leaf.pack c)) leaves' := by
  have hflat : [coarseCell c].flatMap (fun cell => forEachLeaf cell hotspots) =
      forEachLeaf (coarseCell c) hotspots := by
    simp
  obtain ⟨pending, hput, hpushed⟩ := Output.put_wrote
    (⟨List.replicate kStackCells {}, 0⟩ : Output Cell) (coarseCell c) (by decide)
  obtain ⟨leaves', hwalk, hwrote⟩ := walk_spec hotspots c fuel [coarseCell c] pending leaves
    hpushed.written hpushed.used (hpushed.size.trans (length_replicate ..))
    ⟨Nat.zero_le _, Nat.le_refl _, coarse_within c, trivial⟩ hfuel (by rw [hflat]; exact hroom)
  rw [hflat] at hwrote
  refine ⟨leaves', ?_, hwrote⟩
  have hused : leaves'.used - leaves.used = (forEachLeaf (coarseCell c) hotspots).length := by
    rw [hwrote.used, length_map, Nat.add_sub_cancel_left]
  simp only [buildCell, hput, hwalk, bind_eq_bind, bind_some, if_pos hc, hused]
  rfl

/-- The table and the counts after the first coarse cells. -/
structure Built (hotspots : List Hotspot) (n : Nat) (leaves : Output Leaf) (counts : List Nat) :
    Prop where
  written : leaves.written = leavesBefore hotspots n
  used : leaves.used = (leavesBefore hotspots n).length
  size : leaves.buffer.length = kMaxLeaves
  cells : counts.length = kCoarseCells
  counted : ∀ c < n, counts[c]? = some ((forEachLeaf (coarseCell c) hotspots).length % 2 ^ 32)

theorem Built.step {n : Nat} {leaves : Output Leaf} {counts : List Nat}
    (h : Built hotspots n leaves counts) (hh : hotspots.length = kHotspots) {fuel : Nat}
    (hfuel : 2 * kMaxLeaves ≤ fuel) (hn : n < kCoarseCells) :
    ∃ leaves' counts', buildCell fuel hotspots (leaves, counts) n = some (leaves', counts') ∧
      Built hotspots (n + 1) leaves' counts' := by
  have hbound := leavesBefore_le_kMaxLeaves hh (Nat.succ_le_of_lt hn)
  rw [leavesBefore_succ, length_append, length_map, ← h.used, ← h.size] at hbound
  obtain ⟨leaves', hbuild, hwrote⟩ := buildCell_spec
    (Nat.le_trans (visits_coarse_le hh hn) hfuel) (h.cells ▸ hn) hbound
  refine ⟨leaves', _, hbuild, ?_, ?_, hwrote.size.trans h.size, ?_, ?_⟩
  · rw [hwrote.written, h.written, leavesBefore_succ]
  · rw [hwrote.used, h.used, leavesBefore_succ, length_append]
  · rw [length_set, h.cells]
  · intro c hc
    rcases Nat.lt_succ_iff_lt_or_eq.mp hc with hlt | heq
    · rw [getElem?_set_ne (by omega), h.counted c hlt]
    · rw [heq, getElem?_set_self (h.cells ▸ hn)]

theorem buildMesh_spec (hh : hotspots.length = kHotspots) {fuel : Nat}
    (hfuel : 2 * kMaxLeaves ≤ fuel) {leaves : List Leaf} (hl : leaves.length = kMaxLeaves)
    {counts : List Nat} (hc : counts.length = kCoarseCells) :
    ∃ mesh counts', buildMesh fuel hotspots leaves counts = some (mesh, counts') ∧
      Built hotspots kCoarseCells mesh counts' := by
  let start : Output Leaf × List Nat := (⟨leaves, 0⟩, counts)
  have hinit : Built hotspots 0 start.1 start.2 :=
    ⟨rfl, rfl, hl, hc, fun c hlt => absurd hlt (Nat.not_lt_zero c)⟩
  have hstep : ∀ n < kCoarseCells, ∀ state : Output Leaf × List Nat,
      Built hotspots n state.1 state.2 → ∃ state', buildCell fuel hotspots state n = some state' ∧
        Built hotspots (n + 1) state'.1 state'.2 := by
    intro n hn state hstate
    obtain ⟨leaves', counts', hcell, hbuilt⟩ := hstate.step hh hfuel hn
    exact ⟨(leaves', counts'), hcell, hbuilt⟩
  obtain ⟨state, hbuild, hbuilt⟩ :=
    foldlM_range_spec (fun n (state : Output Leaf × List Nat) => Built hotspots n state.1 state.2)
      hstep hinit
  exact ⟨state.1, state.2, hbuild, hbuilt⟩

theorem hotspotsOf_spec {input : List UInt8} (h : input.length = kInputBytes) :
    ∃ hotspots, hotspotsOf input = some hotspots ∧ hotspots.length = kHotspots := by
  have hbytes : kInputBytes = 2048 := rfl
  have hcount : kHotspots = 256 := rfl
  have heach : kHotspotBytes = 8 := rfl
  rw [hotspotsOf]
  apply foldlM_range_spec (fun n (hotspots : List Hotspot) => hotspots.length = n) _ rfl
  intro n hn hotspots hlength
  rw [heach]
  have hx : n * 8 + 4 ≤ input.length := by omega
  have hy : n * 8 + 4 + 4 ≤ input.length := by omega
  simp only [loadWord, if_pos hx, if_pos hy, bind_eq_bind, bind_some, Option.pure_def]
  refine ⟨_, rfl, ?_⟩
  rw [length_append, hlength, length_singleton]

/-- The leaves of a coarse cell as the oracle finds them. -/
def leavesOf (c : Nat) (all : List Hotspot) : List Cell :=
  forEachLeaf (coarseCell c) (hotspotsIn (coarseCell c) all)

theorem leavesOf_eq (c : Nat) (all : List Hotspot) :
    leavesOf c all = forEachLeaf (coarseCell c) all :=
  forEachLeaf_hotspotsIn all (coarseCell c) (coarseCell c) (under_self (coarse_within c))

theorem pack_leaf {c : Nat} (hc : c < kCoarseCells) {all : List Hotspot} {leaf : Cell}
    (hmem : leaf ∈ forEachLeaf (coarseCell c) all) :
    Leaf.pack c leaf = ⟨c, leaf.ix, leaf.iy, leaf.level⟩ := by
  have hcells : kCoarseCells = 256 := rfl
  have hmax : kMaxLevel = 9 := rfl
  obtain ⟨habove, hwithin, hix, hiy⟩ :=
    under_of_mem all (coarseCell c) (coarseCell c) (under_self (coarse_within c)) leaf hmem
  have hpow : 2 ^ (leaf.level - (coarseCell c).level) ≤ 2 ^ 5 :=
    Nat.pow_le_pow_right (by decide) (Nat.sub_le_sub_right hwithin _)
  have hbound : ∀ i b : Nat, b < 16 → i / 2 ^ (leaf.level - (coarseCell c).level) = b →
      i < 2 ^ 16 := by
    intro i b hb hdiv
    have hlt : i < 2 ^ (leaf.level - (coarseCell c).level) * (b + 1) := by
      rw [← hdiv]
      exact Nat.lt_mul_div_succ i (Nat.two_pow_pos _)
    calc i < 2 ^ (leaf.level - (coarseCell c).level) * (b + 1) := hlt
      _ ≤ 2 ^ 5 * 16 := Nat.mul_le_mul hpow hb
      _ < 2 ^ 16 := by decide
  have hx := hbound _ _ (Nat.mod_lt _ (by decide)) hix
  have hy := hbound _ _ ((Nat.div_lt_iff_lt_mul (by decide)).mpr hc) hiy
  rw [Leaf.pack, Nat.mod_eq_of_lt hx, Nat.mod_eq_of_lt hy, Nat.mod_eq_of_lt (by omega),
    Nat.mod_eq_of_lt (by omega)]

/-- The leaves of one coarse cell, as the table lists them and as a picture of the plane. -/
structure CellMeshed (all : List Hotspot) (c : Nat) (counts : List Nat) : Prop where
  counted : counts[c]? = some (leafCount c all)
  tiled : Tiles (leavesOf c all) (region (coarseCell c))
  done : ∀ leaf ∈ leavesOf c all, splits leaf all = false

structure MeshAgrees (all : List Hotspot) (mesh : Output Leaf) (counts : List Nat) : Prop where
  written : mesh.written = (List.range kCoarseCells).flatMap fun c =>
    (leavesOf c all).map fun leaf => ⟨c, leaf.ix, leaf.iy, leaf.level⟩
  bounded : mesh.used = mesh.written.length ∧ mesh.used ≤ kMaxLeaves
  cells : ∀ c < kCoarseCells, CellMeshed all c counts

theorem Built.agrees {all : List Hotspot} {mesh : Output Leaf} {counts : List Nat}
    (h : Built all kCoarseCells mesh counts) (hh : all.length = kHotspots) :
    MeshAgrees all mesh counts := by
  refine ⟨?_, ⟨by rw [h.used, h.written], ?_⟩, ?_⟩
  · rw [h.written, leavesBefore]
    apply flatMap_congr
    intro c hc
    rw [leavesOf_eq]
    apply map_congr_left
    intro leaf hmem
    exact pack_leaf (mem_range.mp hc) hmem
  · rw [h.used]
    exact leavesBefore_le_kMaxLeaves hh (Nat.le_refl _)
  · intro c hc
    have hleaves := leavesOf_eq c all
    refine ⟨?_, forEachLeaf_tiles _ _, ?_⟩
    · rw [h.counted c hc, leafCount]
      rw [leavesOf] at hleaves
      rw [hleaves]
    · intro leaf hmem
      rw [hleaves] at hmem
      exact not_splits_of_mem all (coarseCell c) leaf hmem

/-- The build ends within its stack and table with the oracle's leaves in its order and its
counts; the leaves tile their coarse cell and none is to be split. -/
theorem mesh_builder_equals_recursion (input : List UInt8) (hi : input.length = kInputBytes)
    (leaves : List Leaf) (hl : leaves.length = kMaxLeaves) (counts : List Nat)
    (hc : counts.length = kCoarseCells) (fuel : Nat) (hfuel : 2 * kMaxLeaves ≤ fuel) :
    ∃ all mesh counts', hotspotsOf input = some all ∧
      buildMesh fuel all leaves counts = some (mesh, counts') ∧ MeshAgrees all mesh counts' := by
  obtain ⟨all, hall, hlength⟩ := hotspotsOf_spec hi
  obtain ⟨mesh, counts', hbuild, hbuilt⟩ := buildMesh_spec hlength hfuel hl hc
  exact ⟨all, mesh, counts', hall, hbuild, hbuilt.agrees hlength⟩

theorem zero_hotspots_make_the_recursion :
    ∃ all mesh counts', hotspotsOf (List.replicate kInputBytes 0) = some all ∧
      buildMesh (2 * kMaxLeaves) all (List.replicate kMaxLeaves {})
        (List.replicate kCoarseCells 0) = some (mesh, counts') ∧ MeshAgrees all mesh counts' :=
  mesh_builder_equals_recursion _ (length_replicate ..) _ (length_replicate ..) _
    (length_replicate ..) _ (Nat.le_refl _)

end LoadForge.Verification.AdaptiveMesh
