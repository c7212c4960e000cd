import LoadForge.Workloads.Graph

namespace LoadForge.Workloads.Graph

open Framework List Function Option

section Build

variable {input : List UInt8} (h : input.length = kInputBytes)

include h

theorem countHeads_spec {n : Nat} (hn : n = kVertices + 1) :
    ∃ offsets, (range kEdges).foldlM (countHead input) (List.replicate n 0) = some offsets ∧
      Shows offsets (kVertices + 1) fun v => Nat.count (fun e => headOf input e + 1 = v) kEdges := by
  apply foldlM_range_spec fun k (offsets : List Nat) =>
    Shows offsets (kVertices + 1) fun v => Nat.count (fun e => headOf input e + 1 = v) k
  · intro k hk offsets hoffsets
    obtain ⟨hhead, hlt⟩ := headAt_eq h (Nat.le_of_lt hk)
    have hcount : Nat.count (fun e => headOf input e + 1 = headOf input k + 1) k ≤ k :=
      Nat.count_le ..
    have hedges := kEdges_eq
    obtain ⟨offsets', hstore, hshows⟩ := hoffsets.store (Nat.succ_lt_succ hlt)
      ((Nat.count (fun e => headOf input e + 1 = headOf input k + 1) k + 1) % 2 ^ 32)
    refine ⟨offsets', ?_, hshows.congr ?_⟩
    · simp only [countHead, hhead, hoffsets.get _ (Nat.succ_lt_succ hlt), bind_eq_bind,
        bind_some, hstore]
    · intro v _
      rw [Nat.count_succ]
      by_cases hv : v = headOf input k + 1
      · rw [hv, update_self, if_pos rfl, Nat.mod_eq_of_lt (by omega)]
      · rw [update_of_ne hv, if_neg (Ne.symm hv), Nat.add_zero]
  · rw [hn]
    exact (shows_replicate (kVertices + 1) 0).congr fun v _ => rfl

omit h in
theorem count_head_succ (head : Nat → Nat) (v n : Nat) :
    Nat.count (fun e => head e + 1 = v + 1) n = (inEdges head n v).length := by
  rw [inEdges_length]
  congr 1
  funext e
  rw [Nat.add_right_cancel_iff]

omit h in
/-- After it, where a vertex's edges end, and a cursor at the start of every vertex. -/
theorem sumOffsets_spec {head : Nat → Nat} {offsets cursor : List Nat}
    (ho : Shows offsets (kVertices + 1) fun v => Nat.count (fun e => head e + 1 = v) kEdges)
    (hc : cursor.length = kVertices) :
    ∃ state, (range kVertices).foldlM sumOffset (offsets, cursor) = some state ∧
      Shows state.1 (kVertices + 1) (edgesBelow head) ∧
      Shows state.2 kVertices (edgesBelow head) := by
  apply foldlM_range_result fun k (state : List Nat × List Nat) =>
    Shows state.1 (kVertices + 1) (fun v => if v ≤ k then edgesBelow head v
      else Nat.count (fun e => head e + 1 = v) kEdges) ∧
    Shows state.2 kVertices (fun v => if v < k then edgesBelow head v else cursor.getD v 0)
  · intro k hk state hstate
    have hnext := hstate.1.get (k + 1) (by omega)
    have hfirst := hstate.1.get k (by omega)
    rw [if_neg (by omega), count_head_succ] at hnext
    rw [if_pos (Nat.le_refl k)] at hfirst
    have hsum : ((inEdges head kEdges k).length + edgesBelow head k) % 2 ^ 32 =
        edgesBelow head (k + 1) := by
      have hle := edgesBelow_le head (k + 1)
      have hedges := kEdges_eq
      rw [Nat.add_comm, ← edgesBelow_succ, Nat.mod_eq_of_lt (by omega)]
    obtain ⟨offsets', hstore, hshows⟩ :=
      hstate.1.store (i := k + 1) (by omega) (edgesBelow head (k + 1))
    have hread := hshows.get k (by omega)
    rw [update_of_ne (by omega), if_pos (Nat.le_refl k)] at hread
    obtain ⟨cursor', hcursor, hmoved⟩ := hstate.2.store hk (edgesBelow head k)
    refine ⟨(offsets', cursor'), ?_, hshows.congr ?_, hmoved.congr ?_⟩
    · simp only [sumOffset, hnext, hfirst, hsum, hstore, hread, hcursor, bind_eq_bind, bind_some]
      rfl
    · intro v _
      by_cases hv : v = k + 1
      · rw [hv, update_self, if_pos (Nat.le_refl _)]
      · rw [update_of_ne hv]
        exact if_congr (by omega) rfl rfl
    · intro v _
      by_cases hv : v = k
      · rw [hv, update_self, if_pos (Nat.lt_succ_self _)]
      · rw [update_of_ne hv]
        exact if_congr (by omega) rfl rfl
  · refine ⟨ho.congr ?_, (shows_getD 0 hc).congr fun v _ => (if_neg (Nat.not_lt_zero v)).symm⟩
    intro v _
    by_cases hv : v = 0
    · rw [hv, if_pos (Nat.le_refl 0), edgesBelow_zero]
      apply Nat.count_of_forall_not
      intro e _ heq
      exact Nat.succ_ne_zero _ heq
    · rw [if_neg (by omega)]
  · intro state hstate
    refine ⟨hstate.1.congr ?_, hstate.2.congr ?_⟩
    · intro v hv
      rw [if_pos (Nat.le_of_lt_succ hv)]
    · intro v hv
      rw [if_pos hv]

omit h in
theorem listed_apart {head : Nat → Nat} {u v p q : Nat} (huv : u ≠ v)
    (hp : p < (inEdges head kEdges u).length) (hq : q < (inEdges head kEdges v).length) :
    edgesBelow head u + p ≠ edgesBelow head v + q := by
  have hu := edgesBelow_succ head u
  have hv := edgesBelow_succ head v
  rcases Nat.lt_or_gt_of_ne huv with hlt | hgt
  · have hmono : edgesBelow head (u + 1) ≤ edgesBelow head v := edgesBelow_mono head hlt
    omega
  · have hmono : edgesBelow head (v + 1) ≤ edgesBelow head u := edgesBelow_mono head hgt
    omega

omit h in
theorem inEdges_length_lt (head : Nat → Nat) {k : Nat} (hk : k < kEdges) :
    (inEdges head k (head k)).length < (inEdges head kEdges (head k)).length := by
  rw [inEdges_length, inEdges_length]
  apply Nat.count_strict_mono _ hk
  rfl

theorem placeEdges_spec {tails cursor : List Nat} (ht : tails.length = kEdges)
    (hc : Shows cursor kVertices (edgesBelow (headOf input))) :
    ∃ state, (range kEdges).foldlM (placeEdge input) (tails, cursor) = some state ∧
      state.1.length = kEdges ∧ state.2.length = kVertices ∧
      ∀ v < kVertices, ∀ q e, (inEdges (headOf input) kEdges v)[q]? = some e →
        state.1[edgesBelow (headOf input) v + q]? = some (tailOf e) := by
  apply foldlM_range_result fun k (state : List Nat × List Nat) => state.1.length = kEdges ∧
    Shows state.2 kVertices (fun v => edgesBelow (headOf input) v +
      (inEdges (headOf input) k v).length) ∧
    ∀ v < kVertices, ∀ q e, (inEdges (headOf input) k v)[q]? = some e →
      state.1[edgesBelow (headOf input) v + q]? = some (tailOf e)
  · intro k hk state hstate
    obtain ⟨hsize, hcursor, hplaced⟩ := hstate
    obtain ⟨hhead, hlt⟩ := headAt_eq h (Nat.le_of_lt hk)
    generalize headOf input = head at *
    have hroom := inEdges_length_lt head hk
    have hend := edgesBelow_succ head (head k)
    have hle := edgesBelow_le head (head k + 1)
    have hedges := kEdges_eq
    obtain ⟨cursor', hstore, hshows⟩ := hcursor.store hlt
      ((edgesBelow head (head k) + (inEdges head k (head k)).length + 1) % 2 ^ 32)
    refine ⟨(state.1.set (edgesBelow head (head k) + (inEdges head k (head k)).length) (tailOf k),
      cursor'), ?_, ?_, hshows.congr ?_, ?_⟩
    · have hwrite : storeCell state.1 (edgesBelow head (head k) +
          (inEdges head k (head k)).length) (tailOf k) = some _ := if_pos (by omega)
      simp only [placeEdge, hhead, hcursor.get _ hlt, hstore, hwrite, bind_eq_bind, bind_some]
      rfl
    · rw [length_set, hsize]
    · intro v _
      rw [inEdges_succ]
      by_cases hv : v = head k
      · rw [hv, update_self, if_pos rfl, length_append, length_singleton,
          Nat.mod_eq_of_lt (by omega), Nat.add_assoc]
      · rw [update_of_ne hv, if_neg (Ne.symm hv)]
    · intro v hv q e he
      rw [inEdges_succ] at he
      have hmono : ∀ u, (inEdges head k u).length ≤ (inEdges head kEdges u).length := by
        intro u
        rw [inEdges_length, inEdges_length]
        exact Nat.count_monotone _ (Nat.le_of_lt hk)
      by_cases hkv : head k = v
      · rw [if_pos hkv] at he
        rw [hkv] at hroom hend hle ⊢
        rcases Nat.lt_trichotomy q (inEdges head k v).length with hq | hq | hq
        · rw [getElem?_append_left hq] at he
          rw [getElem?_set_ne (by omega)]
          exact hplaced v hv q e he
        · rw [hq, getElem?_concat_length] at he
          rw [hq, getElem?_set_self (by omega), some.inj he]
        · rw [getElem?_eq_none (by rw [length_append, length_singleton]; omega)] at he
          exact absurd he (by simp)
      · rw [if_neg hkv] at he
        have hq := (List.getElem?_eq_some_iff.mp he).1
        rw [getElem?_set_ne (listed_apart hkv hroom (Nat.lt_of_lt_of_le hq (hmono v)))]
        exact hplaced v hv q e he
  · refine ⟨ht, hc.congr fun v _ => (Nat.add_zero _).symm, ?_⟩
    intro v _ q e he
    exact absurd he (by simp [inEdges])
  · exact fun state hstate => ⟨hstate.1, hstate.2.1.size, hstate.2.2⟩

theorem buildInEdges_spec {arena : Arena} (ha : arena.Sized) :
    ∃ arena', buildInEdges input arena = some arena' ∧ arena'.Sized ∧
      Grouped (headOf input) arena'.offsets arena'.tails := by
  obtain ⟨offsets, hcount, hcounted⟩ := countHeads_spec h ha.offsets
  obtain ⟨⟨offsets', cursor⟩, hsum, hoffsets, hcursor⟩ := sumOffsets_spec hcounted ha.cursor
  obtain ⟨⟨tails, cursor'⟩, hplace, hsize, hcursor', hplaced⟩ := placeEdges_spec h ha.tails hcursor
  refine ⟨{ arena with offsets := offsets', tails := tails, cursor := cursor' }, ?_, ?_, ?_⟩
  · unfold buildInEdges
    rw [hcount, bind_eq_bind, bind_some, hsum, bind_eq_bind, bind_some]
    dsimp only
    rw [hplace]
    rfl
  · exact ⟨hoffsets.size, hsize, hcursor', ha.lists, ha.dist⟩
  · exact ⟨hoffsets, hplaced⟩

end Build

end LoadForge.Workloads.Graph
