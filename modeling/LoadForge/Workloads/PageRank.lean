import Mathlib.Data.Nat.Bitwise
import LoadForge.Workloads.GraphEdges

namespace LoadForge.Workloads.Graph

open Framework List Function Option

def kIterations : Nat := 16
def kAccumulators : List Nat := [1, 2, 4, 8]
def kMaxAccumulators : Nat := 8

def isAccumulators (accumulators : Nat) : Bool := kAccumulators.any fun a => a == accumulators

/-- The numbers the ranks are made of: two operations, of which nothing is known, and the
constants. -/
structure Arithmetic (R : Type) where
  add : R → R → R
  mul : R → R → R
  zero : R
  kDamping : R
  kTeleport : R
  kInitialRank : R
  kEdgeShare : R

variable {R : Type} (ops : Arithmetic R)

/-- The accumulators combined left to right, scaled and moved. -/
def rankOf (lanes : List R) (accumulators : Nat) : Option R := do
  let sum ← lanes[0]?
  let sum ← (List.range' 1 (accumulators - 1)).foldlM
    (fun sum lane => do
      let partialSum ← lanes[lane]?
      return ops.add sum partialSum)
    sum
  return ops.add ops.kTeleport (ops.mul ops.kDamping sum)

def addTerm (tails : List Nat) (cur : List R) (mask first : Nat) (lanes : List R) (term : Nat) :
    Option (List R) := do
  let tail ← tails[term]?
  let rank ← cur[tail]?
  let lane ← lanes[(term - first) &&& mask]?
  storeCell lanes ((term - first) &&& mask) (ops.add lane (ops.mul rank ops.kEdgeShare))

def sweepVertex (arena : Arena) (cur : List R) (accumulators : Nat) (next : List R)
    (vertex : Nat) : Option (List R) := do
  let first ← arena.offsets[vertex]?
  let last ← arena.offsets[vertex + 1]?
  let lanes ← (List.range' first (last - first)).foldlM
    (addTerm ops arena.tails cur (accumulators - 1) first)
    (List.replicate kMaxAccumulators ops.zero)
  let rank ← rankOf ops lanes accumulators
  storeCell next vertex rank

def sweepScalar (arena : Arena) (cur : List R) (accumulators first last : Nat) (next : List R) :
    Option (List R) :=
  (List.range' first (last - first)).foldlM (sweepVertex ops arena cur accumulators) next

def sweepTask (arena : Arena) (cur : List R) (accumulators : Nat) (next : List R) (index : Nat) :
    Option (List R) :=
  sweepScalar ops arena cur accumulators (index * kVertexChunk)
    (index * kVertexChunk + kVertexChunk) next

/-- The orders in which the executor carries out the tasks of its runs, one run in each sweep. -/
abbrev Orders := Nat → List Nat

/-- One sweep from the ranks of the last iteration to those of the next. -/
def sweep (arena : Arena) (accumulators : Nat) (orders : Orders) (ranks : List R × List R)
    (iteration : Nat) : Option (List R × List R) := do
  let next ← (orders iteration).foldlM (sweepTask ops arena ranks.1 accumulators) ranks.2
  return (next, ranks.1)

/-- The ranks after all iterations. The two regions hold any numbers at first. -/
def runPagerank (arena : Arena) (accumulators : Nat) (orders : Orders) (cur next : List R) :
    Option (List R) := do
  let ranks ← (List.range kIterations).foldlM (sweep ops arena accumulators orders)
    (List.replicate cur.length ops.kInitialRank, next)
  return ranks.1

/-- The terms that go to a lane, added in their order. -/
def laneOf (accumulators lane : Nat) (terms : List R) : R :=
  ((terms.zipIdx.filter fun term => term.2 % accumulators = lane).map Prod.fst).foldl ops.add
    ops.zero

def totalOf (accumulators : Nat) (terms : List R) : R :=
  (List.range' 1 (accumulators - 1)).foldl
    (fun sum lane => ops.add sum (laneOf ops accumulators lane terms))
    (laneOf ops accumulators 0 terms)

/-- The terms of a vertex, in increasing number of their edges. -/
def termsOf (head : Nat → Nat) (previous : Nat → R) (n vertex : Nat) : List R :=
  (inEdges head n vertex).map fun edge => ops.mul (previous (tailOf edge)) ops.kEdgeShare

/-- The ranks the specification asks for after so many iterations. -/
def ranksAfter (head : Nat → Nat) (accumulators : Nat) : Nat → Nat → R
  | 0, _ => ops.kInitialRank
  | iteration + 1, vertex =>
    ops.add ops.kTeleport (ops.mul ops.kDamping (totalOf ops accumulators
      (termsOf ops head (ranksAfter head accumulators iteration) kEdges vertex)))

theorem laneOf_append (a lane : Nat) (terms : List R) (term : R) :
    laneOf ops a lane (terms ++ [term]) =
      if terms.length % a = lane then ops.add (laneOf ops a lane terms) term
      else laneOf ops a lane terms := by
  rw [laneOf, zipIdx_append, filter_append, map_append, foldl_append]
  simp only [zipIdx_singleton, Nat.zero_add, filter_cons, filter_nil]
  split_ifs with h h' h'
  · rfl
  · exact absurd (of_decide_eq_true h) h'
  · exact absurd (decide_eq_true h') h
  · rfl

section

variable {a : Nat} (h : isAccumulators a = true)
include h

theorem isAccumulators_cases : a = 1 ∨ a = 2 ∨ a = 4 ∨ a = 8 := by
  simp [isAccumulators, kAccumulators] at h
  omega

theorem accumulators_pos : 0 < a ∧ a ≤ 8 := by
  have hcases := isAccumulators_cases h
  omega

theorem and_mask (x : Nat) : x &&& (a - 1) = x % a := by
  rcases isAccumulators_cases h with rfl | rfl | rfl | rfl
  · exact Nat.and_two_pow_sub_one_eq_mod x 0
  · exact Nat.and_two_pow_sub_one_eq_mod x 1
  · exact Nat.and_two_pow_sub_one_eq_mod x 2
  · exact Nat.and_two_pow_sub_one_eq_mod x 3

end

theorem sumLanes_spec {lane : Nat → Option R} {a : Nat} {terms : List R}
    (h : ∀ i < a, lane i = some (laneOf ops a i terms)) :
    (range' 1 (a - 1)).foldlM
      (fun sum i => (lane i).bind fun partialSum => some (ops.add sum partialSum))
      (laneOf ops a 0 terms) = some (totalOf ops a terms) := by
  have hfold : ∀ lanes : List Nat, (∀ i ∈ lanes, i < a) → ∀ sum, lanes.foldlM
      (fun sum i => (lane i).bind fun partialSum => some (ops.add sum partialSum)) sum =
      some (lanes.foldl (fun sum i => ops.add sum (laneOf ops a i terms)) sum) := by
    intro lanes
    induction lanes with
    | nil =>
      intro _ sum
      rfl
    | cons i lanes ih =>
      intro hlanes sum
      rw [foldlM_cons, foldl_cons, h i (hlanes i (by simp))]
      exact ih (fun i hmem => hlanes i (by simp [hmem])) _
  apply hfold
  intro i hmem
  rw [mem_range'_1] at hmem
  omega

theorem rankOf_spec {lanes : List R} {a : Nat} {terms : List R} (ha : isAccumulators a = true)
    (h : Shows lanes kMaxAccumulators fun lane => laneOf ops a lane terms) :
    rankOf ops lanes a =
      some (ops.add ops.kTeleport (ops.mul ops.kDamping (totalOf ops a terms))) := by
  obtain ⟨hpos, hle⟩ := accumulators_pos ha
  have hsum := sumLanes_spec ops fun i (hi : i < a) => h.get i (Nat.lt_of_lt_of_le hi hle)
  simp [rankOf, h.get 0 (by decide), hsum]

section Sweep

variable {arena : Arena} {head : Nat → Nat} {a : Nat} {cur : List R} {previous : Nat → R}
variable (hg : Grouped head arena.offsets arena.tails) (ha : isAccumulators a = true)
variable (hcur : Shows cur kVertices previous)

include hg ha hcur

theorem addTerms_spec {vertex : Nat} (hv : vertex < kVertices) :
    ∃ lanes, (range' (edgesBelow head vertex) (inEdges head kEdges vertex).length).foldlM
        (addTerm ops arena.tails cur (a - 1) (edgesBelow head vertex))
        (replicate kMaxAccumulators ops.zero) = some lanes ∧
      Shows lanes kMaxAccumulators fun lane =>
        laneOf ops a lane (termsOf ops head previous kEdges vertex) := by
  have hpos := accumulators_pos ha
  have hlength : (termsOf ops head previous kEdges vertex).length =
      (inEdges head kEdges vertex).length := length_map ..
  refine result_mono (foldlM_range'_spec (fun q (lanes : List R) => Shows lanes kMaxAccumulators
    fun lane => laneOf ops a lane ((termsOf ops head previous kEdges vertex).take q)) ?_ ?_) ?_
  · intro q hq lanes hlanes
    have hedge : (inEdges head kEdges vertex)[q]? = some ((inEdges head kEdges vertex)[q]) :=
      getElem?_eq_getElem hq
    generalize (inEdges head kEdges vertex)[q] = edge at hedge
    have hlt := (mem_inEdges.mp (mem_of_getElem? hedge)).1
    have htail := hg.tails vertex hv q edge hedge
    have hrank := hcur.get (tailOf edge) (tailOf_eq hlt).2
    have hindex : (edgesBelow head vertex + q - edgesBelow head vertex) &&& (a - 1) = q % a := by
      rw [Nat.add_sub_cancel_left, and_mask ha]
    have hinside : q % a < kMaxAccumulators := Nat.lt_of_lt_of_le (Nat.mod_lt q hpos.1) hpos.2
    have hterm : (termsOf ops head previous kEdges vertex)[q]? =
        some (ops.mul (previous (tailOf edge)) ops.kEdgeShare) := by
      rw [termsOf, getElem?_map, hedge]
      rfl
    obtain ⟨lanes', hstore, hshows⟩ := hlanes.store hinside
      (ops.add (laneOf ops a (q % a) ((termsOf ops head previous kEdges vertex).take q))
        (ops.mul (previous (tailOf edge)) ops.kEdgeShare))
    refine ⟨lanes', ?_, hshows.congr ?_⟩
    · simp only [addTerm, htail, hrank, hindex, hlanes.get _ hinside, hstore, bind_eq_bind,
        bind_some]
    · intro lane _
      rw [take_add_one, hterm, toList_some, laneOf_append, length_take, Nat.min_eq_left (by omega)]
      by_cases hlane : lane = q % a
      · rw [hlane, update_self, if_pos rfl]
      · rw [update_of_ne hlane, if_neg (Ne.symm hlane)]
  · exact (shows_replicate kMaxAccumulators ops.zero).congr fun lane _ => rfl
  · intro lanes hlanes
    rw [← hlength, take_length] at hlanes
    exact hlanes

theorem sweepVertex_spec {next : List R} {value : Nat → R} (hnext : Shows next kVertices value)
    {vertex : Nat} (hv : vertex < kVertices) :
    ∃ next', sweepVertex ops arena cur a next vertex = some next' ∧
      Shows next' kVertices (update value vertex (ops.add ops.kTeleport
        (ops.mul ops.kDamping (totalOf ops a (termsOf ops head previous kEdges vertex))))) := by
  obtain ⟨lanes, hterms, hlanes⟩ := addTerms_spec ops hg ha hcur hv
  have hfirst := hg.offsets.get vertex (by omega)
  have hlast := hg.offsets.get (vertex + 1) (by omega)
  have hcount : edgesBelow head (vertex + 1) - edgesBelow head vertex =
      (inEdges head kEdges vertex).length := by
    rw [edgesBelow_succ, Nat.add_sub_cancel_left]
  obtain ⟨next', hstore, hshows⟩ := hnext.store hv (ops.add ops.kTeleport
    (ops.mul ops.kDamping (totalOf ops a (termsOf ops head previous kEdges vertex))))
  refine ⟨next', ?_, hshows⟩
  unfold sweepVertex
  rw [hfirst, bind_eq_bind, bind_some, hlast, bind_eq_bind, bind_some,
    hcount, hterms, bind_eq_bind, bind_some, rankOf_spec ops ha hlanes]
  exact hstore

theorem sweepTask_spec {next : List R} {value : Nat → R} (hnext : Shows next kVertices value)
    {index : Nat} (hi : index < kVertices / kVertexChunk) :
    ∃ next', sweepTask ops arena cur a next index = some next' ∧
      Shows next' kVertices fun v => if v / kVertexChunk = index then
        ops.add ops.kTeleport
          (ops.mul ops.kDamping (totalOf ops a (termsOf ops head previous kEdges v)))
        else value v := by
  have hchunks : kVertices / kVertexChunk = 64 := rfl
  have hchunk : kVertexChunk = 512 := rfl
  have hvertices := kVertices_eq
  rw [sweepTask, sweepScalar, Nat.add_sub_cancel_left]
  refine result_mono (foldlM_range'_spec (fun k (next : List R) => Shows next kVertices fun v =>
    if index * kVertexChunk ≤ v ∧ v < index * kVertexChunk + k then
      ops.add ops.kTeleport
        (ops.mul ops.kDamping (totalOf ops a (termsOf ops head previous kEdges v)))
    else value v) ?_ ?_) ?_
  · intro k hk next hnext
    have hinside : index * kVertexChunk + k < kVertices := by
      rw [hchunk] at hk ⊢
      omega
    obtain ⟨next', hsweep, hshows⟩ := sweepVertex_spec ops hg ha hcur hnext hinside
    refine ⟨next', hsweep, hshows.congr ?_⟩
    intro v _
    by_cases hv : v = index * kVertexChunk + k
    · rw [hv, update_self, if_pos (by omega)]
    · rw [update_of_ne hv]
      exact if_congr (by omega) rfl rfl
  · exact hnext.congr fun v _ => (if_neg (by omega)).symm
  · intro next' hshows
    apply hshows.congr
    intro v _
    apply if_congr _ rfl rfl
    rw [hchunk]
    omega

theorem sweepTasks_spec {next : List R} (hnext : next.length = kVertices) {order : List Nat}
    (ho : IsOrder (kVertices / kVertexChunk) order) :
    ∃ next', order.foldlM (sweepTask ops arena cur a) next = some next' ∧
      Shows next' kVertices fun v => ops.add ops.kTeleport
        (ops.mul ops.kDamping (totalOf ops a (termsOf ops head previous kEdges v))) := by
  refine result_mono (foldlM_order_spec (fun done (next' : List R) => next'.length = kVertices ∧
    ∀ v < kVertices, done (v / kVertexChunk) → next'[v]? = some (ops.add ops.kTeleport
      (ops.mul ops.kDamping (totalOf ops a (termsOf ops head previous kEdges v))))) ho ?_ ?_) ?_
  · intro done task next' htask _ hnext'
    have hbefore := shows_getD ops.zero hnext'.1
    obtain ⟨next'', hrun, hshows⟩ := sweepTask_spec ops hg ha hcur hbefore htask
    refine ⟨next'', hrun, hshows.size, ?_⟩
    intro v hv hdone
    rw [hshows.get v hv]
    by_cases hmine : v / kVertexChunk = task
    · rw [if_pos hmine]
    · rw [if_neg hmine, ← hbefore.get v hv]
      exact hnext'.2 v hv (hdone.resolve_right hmine)
  · exact ⟨hnext, fun v _ hfalse => absurd hfalse not_false⟩
  · intro next' hranks
    refine ⟨hranks.1, ?_⟩
    intro v hv
    exact hranks.2 v hv ((Nat.div_lt_iff_lt_mul (by decide)).mpr hv)

end Sweep

theorem runPagerank_spec {arena : Arena} {head : Nat → Nat} {a : Nat}
    (hg : Grouped head arena.offsets arena.tails) (ha : isAccumulators a = true) {orders : Orders}
    (ho : ∀ iteration, IsOrder (kVertices / kVertexChunk) (orders iteration)) {cur next : List R}
    (hcur : cur.length = kVertices) (hnext : next.length = kVertices) :
    ∃ ranks, runPagerank ops arena a orders cur next = some ranks ∧
      Shows ranks kVertices (ranksAfter ops head a kIterations) := by
  have hloop := foldlM_range_spec (f := sweep ops arena a orders) (n := kIterations)
    (s := (replicate cur.length ops.kInitialRank, next)) (fun k (ranks : List R × List R) =>
      Shows ranks.1 kVertices (ranksAfter ops head a k) ∧ ranks.2.length = kVertices) ?_ ?_
  · obtain ⟨ranks, hrun, hshows, _⟩ := hloop
    refine ⟨ranks.1, ?_, hshows⟩
    simp [runPagerank, hrun]
  · intro k _ ranks hranks
    obtain ⟨next', htasks, hshows⟩ := sweepTasks_spec ops hg ha hranks.1 hranks.2 (ho k)
    refine ⟨(next', ranks.1), ?_, hshows.congr fun v _ => rfl, hranks.1.size⟩
    simp [sweep, htasks]
  · rw [hcur]
    exact ⟨(shows_replicate kVertices ops.kInitialRank).congr fun v _ => rfl, hnext⟩

end LoadForge.Workloads.Graph
