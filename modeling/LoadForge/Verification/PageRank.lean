import LoadForge.Framework.Blocks
import LoadForge.Verification.GraphOracle

namespace LoadForge.Verification.Graph

open Framework Workloads.Graph List Option

variable {R : Type} (ops : Arithmetic R)

theorem termsOf_succ (head : Nat → Nat) (previous : Nat → R) (n v : Nat) :
    termsOf ops head previous (n + 1) v = if head n = v then termsOf ops head previous n v ++
      [ops.mul (previous (tailOf n)) ops.kEdgeShare] else termsOf ops head previous n v := by
  rw [termsOf, inEdges_succ]
  split_ifs with h
  · rw [map_append]
    rfl
  · rfl

section Oracle

variable {head : Nat → Nat} (hhead : ∀ e < kEdges, head e < kVertices)
variable {heads : List Nat} (hheads : Shows heads kEdges head)
variable {a : Nat} (ha : isAccumulators a = true)

include hhead hheads ha

theorem countSlots_spec {n : Nat} (hn : n = kVertices) {slot : List Nat}
    (hs : slot.length = kEdges) :
    ∃ state, (range kEdges).foldlM (countSlot a heads) (replicate n 0, slot) = some state ∧
      ∀ e < kEdges, state.2[e]? = some ((inEdges head e (head e)).length % a) := by
  have hpos := accumulators_pos ha
  apply foldlM_range_result fun k (state : List Nat × List Nat) =>
    Shows state.1 kVertices (fun v => (inEdges head k v).length) ∧ state.2.length = kEdges ∧
    ∀ e < k, state.2[e]? = some ((inEdges head e (head e)).length % a)
  · intro k hk state hstate
    obtain ⟨hdegree, hsize, hslots⟩ := hstate
    have hcount : (inEdges head k (head k)).length ≤ k := by
      rw [inEdges_length]
      exact Nat.count_le ..
    have hedges := kEdges_eq
    have hsmall : (inEdges head k (head k)).length % a % 2 ^ 8 =
        (inEdges head k (head k)).length % a := by
      have hlt := Nat.mod_lt (inEdges head k (head k)).length hpos.1
      rw [Nat.mod_eq_of_lt (by omega)]
    obtain ⟨degree', hcounted, hshows⟩ := hdegree.store (hhead k hk)
      (((inEdges head k (head k)).length + 1) % 2 ^ 32)
    have hwrite : storeCell state.2 k ((inEdges head k (head k)).length % a) = some _ :=
      if_pos (hsize ▸ hk)
    refine ⟨(degree', state.2.set k ((inEdges head k (head k)).length % a)), ?_, hshows.congr ?_,
      ?_, ?_⟩
    · simp only [countSlot, hheads.get k hk, hdegree.get _ (hhead k hk), hsmall, hwrite, hcounted,
        bind_eq_bind, bind_some, Option.pure_def]
    · intro v _
      rw [inEdges_succ]
      by_cases hv : v = head k
      · rw [hv, Function.update_self, if_pos rfl, length_append, length_singleton,
          Nat.mod_eq_of_lt (by omega)]
      · rw [Function.update_of_ne hv, if_neg (Ne.symm hv)]
    · rw [length_set, hsize]
    · intro e he
      by_cases hek : e = k
      · rw [hek, getElem?_set_self (hsize ▸ hk)]
      · rw [getElem?_set_ne (Ne.symm hek)]
        exact hslots e (by omega)
  · refine ⟨?_, hs, fun e he => absurd he (Nat.not_lt_zero e)⟩
    rw [hn]
    exact (shows_replicate kVertices 0).congr fun v _ => rfl
  · exact fun state hstate => hstate.2.2

theorem addEdges_spec {slot : List Nat}
    (hslot : ∀ e < kEdges, slot[e]? = some ((inEdges head e (head e)).length % a))
    {ranks : List R} {previous : Nat → R} (hranks : Shows ranks kVertices previous) {n : Nat}
    (hn : n = kVertices * a) :
    ∃ sums, (range kEdges).foldlM (addEdge ops a heads slot ranks)
        (replicate n ops.zero) = some sums ∧ sums.length = kVertices * a ∧
      ∀ v < kVertices, ∀ l < a, sums[v * a + l]? =
        some (laneOf ops a l (termsOf ops head previous kEdges v)) := by
  have hpos := accumulators_pos ha
  apply foldlM_range_spec fun k (sums : List R) => sums.length = kVertices * a ∧
    ∀ v < kVertices, ∀ l < a, sums[v * a + l]? =
      some (laneOf ops a l (termsOf ops head previous k v))
  · intro k hk sums hstate
    obtain ⟨hsize, hlanes⟩ := hstate
    have hlane : (inEdges head k (head k)).length % a < a := Nat.mod_lt _ hpos.1
    have hread := hlanes (head k) (hhead k hk) _ hlane
    have hinside : head k * a + (inEdges head k (head k)).length % a < sums.length := by
      rw [hsize]
      exact block_lt (hhead k hk) hlane
    refine ⟨sums.set (head k * a + (inEdges head k (head k)).length % a)
      (ops.add (laneOf ops a ((inEdges head k (head k)).length % a)
        (termsOf ops head previous k (head k))) (ops.mul (previous (tailOf k)) ops.kEdgeShare)),
      ?_, ?_, ?_⟩
    · simp only [addEdge, hranks.get _ (tailOf_eq hk).2, hheads.get k hk, hslot k hk, hread,
        bind_eq_bind, bind_some]
      exact if_pos hinside
    · rw [length_set, hsize]
    · intro v hv l hl
      have hlength : (termsOf ops head previous k v).length = (inEdges head k v).length :=
        length_map ..
      rw [termsOf_succ]
      by_cases hkv : head k = v
      · rw [if_pos hkv, laneOf_append, hlength, hkv]
        rw [hkv] at hinside
        by_cases hkl : (inEdges head k v).length % a = l
        · rw [if_pos hkl, ← hkl, getElem?_set_self hinside]
        · rw [if_neg hkl, getElem?_set_ne (by omega)]
          exact hlanes v hv l hl
      · rw [if_neg hkv, getElem?_set_ne]
        · exact hlanes v hv l hl
        · intro heq
          exact hkv (block_inj hlane hl heq).1
  · refine ⟨by rw [length_replicate, hn], ?_⟩
    intro v hv l hl
    rw [hn, getElem?_replicate, if_pos (block_lt hv hl)]
    rfl

omit hhead hheads in
theorem rankVertices_spec {sums next : List R} {terms : Nat → List R}
    (hsums : ∀ v < kVertices, ∀ l < a, sums[v * a + l]? = some (laneOf ops a l (terms v)))
    (hnext : next.length = kVertices) :
    ∃ next', (range kVertices).foldlM (rankVertex ops a sums) next = some next' ∧
      Shows next' kVertices fun v =>
        ops.add ops.kTeleport (ops.mul ops.kDamping (totalOf ops a (terms v))) := by
  have hpos := accumulators_pos ha
  apply foldlM_fill hnext
  intro v hv next
  have hfirst := hsums v hv 0 hpos.1
  rw [Nat.add_zero] at hfirst
  have htotal := sumLanes_spec ops (hsums v hv)
  simp [rankVertex, hfirst, htotal]

theorem pageRank_spec {scratch : Scratch R} (hs : scratch.Sized) :
    ∃ ranks, pageRank ops a heads scratch = some ranks ∧
      Shows ranks kVertices (ranksAfter ops head a kIterations) := by
  have hpos := accumulators_pos ha
  obtain ⟨⟨degree, slot⟩, hcount, hslot⟩ := countSlots_spec hhead hheads ha hs.inDegree hs.slot
  have hlanes : (scratch.accumulators.take (kVertices * a)).length = kVertices * a := by
    rw [length_take, hs.accumulators]
    exact Nat.min_eq_left (Nat.mul_le_mul_left kVertices hpos.2)
  unfold pageRank
  rw [hcount, bind_eq_bind, bind_some]
  apply result_bind
  apply foldlM_range_result fun k (state : Iterate R) =>
    Shows state.previous kVertices (ranksAfter ops head a k) ∧
    state.next.length = kVertices ∧ state.sums.length = kVertices * a
  · intro k _ state hstate
    obtain ⟨hprevious, hnext, hsums⟩ := hstate
    obtain ⟨sums, hadd, hsize, hfilled⟩ := addEdges_spec ops hhead hheads ha hslot hprevious hsums
    obtain ⟨next', hrank, hranks⟩ := rankVertices_spec ops ha hfilled hnext
    refine ⟨⟨next', state.previous, sums⟩, ?_, hranks.congr fun v _ => rfl, hprevious.size, hsize⟩
    simp [iterate, hadd, hrank]
  · refine ⟨?_, hs.rankOdd, hlanes⟩
    rw [hs.rankEven]
    exact (shows_replicate kVertices ops.kInitialRank).congr fun v _ => rfl
  · exact fun state hstate => ⟨_, rfl, hstate.1⟩

end Oracle

/-- The sweep and the oracle both end, with the ranks that the terms of the recurrence come to. -/
def OneTree (input : List UInt8) (a : Nat) (arena : Arena) (orders : Orders) (cur next : List R)
    (scratch : Scratch R) : Prop :=
  ∃ grouped heads ranks, buildInEdges input arena = some grouped ∧
    decodeHeads input scratch.head = some heads ∧
    runPagerank ops grouped a orders cur next = some ranks ∧
    pageRank ops a heads scratch = some ranks ∧
    Shows ranks kVertices (ranksAfter ops (headOf input) a kIterations)

/-- The sweep and the oracle compute the specification's expression, for any operations, order of
tasks and scratch. -/
theorem sweep_and_oracle_compute_one_tree (input : List UInt8) (hi : input.length = kInputBytes)
    (a : Nat) (ha : isAccumulators a = true) (arena : Arena) (harena : arena.Sized)
    (orders : Orders) (ho : ∀ iteration, IsOrder (kVertices / kVertexChunk) (orders iteration))
    (cur next : List R) (hcur : cur.length = kVertices) (hnext : next.length = kVertices)
    (scratch : Scratch R) (hs : scratch.Sized) :
    OneTree ops input a arena orders cur next scratch := by
  obtain ⟨grouped, hbuild, _, hg⟩ := buildInEdges_spec hi harena
  obtain ⟨heads, hdecode, hheads⟩ := decodeHeads_spec hi hs.head
  have hhead : ∀ e < kEdges, headOf input e < kVertices :=
    fun e he => (headAt_eq hi (Nat.le_of_lt he)).2
  obtain ⟨ranks, hrun, hranks⟩ := runPagerank_spec ops hg ha ho hcur hnext
  obtain ⟨expected, horacle, hexpected⟩ := pageRank_spec ops hhead hheads ha hs
  rw [hexpected.unique hranks] at horacle
  exact ⟨grouped, heads, ranks, hbuild, hdecode, hrun, horacle, hranks⟩

/-- Sums of terms written out, with nothing known of them. -/
def symbolic : Arithmetic String where
  add := fun x y => "(" ++ x ++ "+" ++ y ++ ")"
  mul := fun x y => x ++ "*" ++ y
  zero := "0"
  kDamping := "d"
  kTeleport := "c"
  kInitialRank := "r"
  kEdgeShare := "e"

def zeroScratch : Scratch String where
  head := List.replicate kEdges 0
  distance := List.replicate kVertices 0
  queue := List.replicate kVertices 0
  inDegree := List.replicate kVertices 0
  slot := List.replicate kEdges 0
  rankEven := List.replicate kVertices ""
  rankOdd := List.replicate kVertices ""
  accumulators := List.replicate (kVertices * 8) ""

theorem zeroScratch_sized : zeroScratch.Sized :=
  ⟨length_replicate .., length_replicate .., length_replicate ..,
    length_replicate .., length_replicate .., length_replicate ..,
    length_replicate .., length_replicate ..⟩

theorem written_out_terms_are_one_tree :
    OneTree symbolic (List.replicate kInputBytes 0) 4 zeroArena
      (fun _ => (List.range (kVertices / kVertexChunk)).reverse) zeroScratch.rankEven
      zeroScratch.rankOdd zeroScratch :=
  sweep_and_oracle_compute_one_tree symbolic _ (length_replicate ..) 4 (by decide) zeroArena
    zeroArena_sized _ (fun _ => reverse_perm _) _ _ zeroScratch_sized.rankEven
    zeroScratch_sized.rankOdd zeroScratch zeroScratch_sized

end LoadForge.Verification.Graph
