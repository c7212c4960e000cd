import LoadForge.Verification.GraphOracle
import LoadForge.Workloads.BfsRuns

namespace LoadForge.Verification.Graph

open Framework Workloads.Graph List Function Option

/-- The search with so many vertices off the queue and so many edges of the next looked at. -/
structure Searched (head : Nat → Nat) (source read out : Nat) (d : Nat → Nat) (order : List Nat)
    (distance : List Nat) (queue : Output Nat) : Prop where
  dist : Shows distance kVertices d
  written : queue.written = order
  used : queue.used = order.length
  size : queue.buffer.length = kVertices
  nodup : order.Nodup
  first : source ∈ order
  seen : ∀ v, v ∈ order ↔ v < kVertices ∧ d v ≠ kUnreachable
  right : ∀ v ∈ order, IsDist (Leads head) source (d v) v
  sorted : order.Pairwise fun u v => d u ≤ d v
  near : ∀ t, order[read]? = some t → ∀ v ∈ order, d v ≤ d t + 1
  early : ∀ i v, order[i]? = some v → d v ≤ i
  closed : ∀ i < read, ∀ t, order[i]? = some t → ∀ v, Leads head t v → v ∈ order
  looked : ∀ t, order[read]? = some t → ∀ o < out, head (t * kOutDegree + o) ∈ order

section Search

variable {head : Nat → Nat} {source : Nat} (hhead : ∀ e < kEdges, head e < kVertices)
variable {read out : Nat} {d : Nat → Nat} {order distance : List Nat} {queue : Output Nat}

section Reading

variable (h : Searched head source read out d order distance queue)

include h

section

variable {t : Nat} (ht : order[read]? = some t)
include ht

theorem Searched.seen_of_le (n : Nat) (hn : n ≤ d t) (v : Nat)
    (hv : IsDist (Leads head) source n v) : v ∈ order := by
  induction n generalizing v with
  | zero =>
    rw [isDist_zero_iff] at hv
    rw [hv]
    exact h.first
  | succ n ih =>
    obtain ⟨⟨u, hu, hedge⟩, _⟩ := isDist_succ_iff.mp hv
    have hmem := ih (by omega) u hu
    have hdu : d u = n := (h.right u hmem).unique hu
    obtain ⟨i, hi, hget⟩ := getElem_of_mem hmem
    have hget? : order[i]? = some u := by rw [getElem?_eq_getElem hi, hget]
    by_cases hir : i < read
    · exact h.closed i hir u hget? v hedge
    · obtain ⟨hr, hgetr⟩ := List.getElem?_eq_some_iff.mp ht
      rcases Nat.lt_or_eq_of_le (Nat.le_of_not_lt hir) with hlt | heq
      · have hle := pairwise_iff_getElem.mp h.sorted read i hr hi hlt
        rw [hgetr, hget] at hle
        omega
      · have hut : u = t := by
          rw [← heq] at hget?
          exact some.inj (hget?.symm.trans ht)
        rw [hut] at hdu
        omega

theorem Searched.isDist {v : Nat} (hedge : Leads head t v) (hv : v ∉ order) :
    IsDist (Leads head) source (d t + 1) v := by
  rw [isDist_succ_iff]
  refine ⟨⟨t, h.right t (mem_of_getElem? ht), hedge⟩, ?_⟩
  intro m hm hdist
  exact hv (h.seen_of_le ht m hm v hdist)

theorem Searched.skip (hmem : head (t * kOutDegree + out) ∈ order) :
    Searched head source read (out + 1) d order distance queue := by
  refine { h with looked := ?_ }
  intro t' ht' o ho
  rw [some.inj (ht'.symm.trans ht)]
  rcases Nat.lt_succ_iff_lt_or_eq.mp ho with hlt | heq
  · exact h.looked t ht o hlt
  · rw [heq]
    exact hmem

omit ht in
theorem Searched.length_le : order.length ≤ kVertices :=
  length_le_of_nodup h.nodup fun v hv => ((h.seen v).mp hv).1

theorem Searched.push {v : Nat} (hv : v < kVertices) (hnew : d v = kUnreachable)
    (hout : out < kOutDegree) (hhv : head (t * kOutDegree + out) = v) :
    ∃ distance' queue', storeCell distance v ((d t + 1) % 2 ^ 32) = some distance' ∧
      queue.put v = some queue' ∧ Searched head source read (out + 1)
        (update d v (d t + 1)) (order ++ [v]) distance' queue' := by
  have hfresh : v ∉ order := fun hmem => ((h.seen v).mp hmem).2 hnew
  have hother : ∀ u ∈ order, update d v (d t + 1) u = d u := by
    intro u hu
    apply update_of_ne
    intro heq
    exact hfresh (heq ▸ hu)
  obtain ⟨hread, _⟩ := List.getElem?_eq_some_iff.mp ht
  have hdt := h.early read t ht
  have hnodup : (order ++ [v]).Nodup := by
    rw [← concat_eq_append]
    exact h.nodup.concat hfresh
  have hroom : order.length < kVertices := by
    have hle : (order ++ [v]).length ≤ kVertices := by
      apply length_le_of_nodup hnodup
      intro u hu
      rw [mem_append, mem_singleton] at hu
      rcases hu with hu | hu
      · exact ((h.seen u).mp hu).1
      · exact hu ▸ hv
    rw [length_append, length_singleton] at hle
    omega
  have hvertices := kVertices_eq
  have hword : (d t + 1) % 2 ^ 32 = d t + 1 := Nat.mod_eq_of_lt (by omega)
  have hfar : d t + 1 ≠ kUnreachable := by
    have hunreachable : kUnreachable = 4294967295 := rfl
    omega
  have htmem : t ∈ order := mem_of_getElem? ht
  obtain ⟨distance', hstore, hshows⟩ := h.dist.store hv (d t + 1)
  obtain ⟨queue', hput, hwrote⟩ := Output.put_wrote queue v (by rw [h.used, h.size]; exact hroom)
  refine ⟨distance', queue', by rw [hword]; exact hstore, hput, ?_⟩
  have hget : ∀ {i u : Nat}, (order ++ [v])[i]? = some u →
      order[i]? = some u ∨ i = order.length ∧ u = v := by
    intro i u hu
    by_cases hi : i < order.length
    · rw [getElem?_append_left hi] at hu
      exact Or.inl hu
    · rw [getElem?_append_right (by omega), getElem?_singleton] at hu
      split_ifs at hu with hzero
      exact Or.inr ⟨by omega, (some.inj hu).symm⟩
  have hgett : ∀ {t' : Nat}, (order ++ [v])[read]? = some t' → t' = t := by
    intro t' ht'
    rw [getElem?_append_left hread, ht] at ht'
    exact (some.inj ht').symm
  refine ⟨hshows, ?_, ?_, ?_, hnodup, ?_, ?_, ?_, ?_, ?_, ?_, ?_, ?_⟩
  · rw [hwrote.written, h.written]
  · rw [hwrote.used, h.used, length_append]
  · rw [hwrote.size, h.size]
  · exact mem_append_left _ h.first
  · intro u
    rw [mem_append, mem_singleton]
    by_cases huv : u = v
    · rw [huv, update_self]
      exact iff_of_true (Or.inr rfl) ⟨hv, hfar⟩
    · rw [update_of_ne huv, or_iff_left huv, h.seen]
  · intro u hu
    rw [mem_append, mem_singleton] at hu
    rcases hu with hu | hu
    · rw [hother u hu]
      exact h.right u hu
    · rw [hu, update_self]
      exact h.isDist ht ⟨out, hout, hhv⟩ hfresh
  · rw [pairwise_append]
    refine ⟨?_, pairwise_singleton _ _, ?_⟩
    · apply h.sorted.imp_of_mem
      intro u w hu hw hle
      rw [hother u hu, hother w hw]
      exact hle
    · intro u hu w hw
      rw [mem_singleton] at hw
      rw [hw, update_self, hother u hu]
      exact h.near t ht u hu
  · intro t' ht' u hu
    rw [hgett ht', hother t htmem]
    rw [mem_append, mem_singleton] at hu
    rcases hu with hu | hu
    · rw [hother u hu]
      exact h.near t ht u hu
    · rw [hu, update_self]
  · intro i u hu
    rcases hget hu with hold | ⟨hi, huv⟩
    · rw [hother u (mem_of_getElem? hold)]
      exact h.early i u hold
    · rw [huv, update_self]
      omega
  · intro i hi t' ht' u hedge
    rw [getElem?_append_left (by omega)] at ht'
    exact mem_append_left _ (h.closed i hi t' ht' u hedge)
  · intro t' ht' o ho
    rw [hgett ht', mem_append, mem_singleton]
    rcases Nat.lt_succ_iff_lt_or_eq.mp ho with hlt | heq
    · exact Or.inl (h.looked t ht o hlt)
    · exact Or.inr (heq ▸ hhv)

end

end Reading

theorem Searched.advance (h : Searched head source read kOutDegree d order distance queue)
    (hread : read < order.length) : Searched head source (read + 1) 0 d order distance queue := by
  have ht : order[read]? = some order[read] := getElem?_eq_getElem hread
  refine { h with near := ?_, closed := ?_, looked := ?_ }
  · intro t' ht' v hv
    obtain ⟨hread', hget⟩ := List.getElem?_eq_some_iff.mp ht'
    have hle := pairwise_iff_getElem.mp h.sorted read (read + 1) hread hread' (by omega)
    have hnear := h.near _ ht v hv
    rw [hget] at hle
    omega
  · intro i hi t hget v hedge
    rcases Nat.lt_succ_iff_lt_or_eq.mp hi with hlt | heq
    · exact h.closed i hlt t hget v hedge
    · obtain ⟨o, ho, hhead⟩ := hedge
      rw [← hhead]
      exact h.looked t (heq ▸ hget) o ho
  · intro t _ o ho
    exact absurd ho (Nat.not_lt_zero o)

theorem Searched.distances (h : Searched head source order.length 0 d order distance queue) :
    Distances head source distance := by
  have hall : ∀ n v, Steps (Leads head) source n v → v ∈ order := by
    intro n v hsteps
    induction hsteps with
    | start => exact h.first
    | follow _ hedge ih =>
      obtain ⟨i, hi, hget⟩ := getElem_of_mem ih
      exact h.closed i hi _ (by rw [getElem?_eq_getElem hi, hget]) _ hedge
  refine ⟨h.dist.size, ?_, ?_⟩
  · intro v hv n hn
    rw [h.dist.get v hv, (h.right v (hall n v hn.reached)).unique hn]
  · intro v hv hnone
    rw [h.dist.get v hv]
    by_contra hne
    have hmem : v ∈ order := (h.seen v).mpr ⟨hv, fun heq => hne (congrArg some heq)⟩
    exact hnone _ (h.right v hmem)

include hhead

variable {heads : List Nat} (hheads : Shows heads kEdges head)

include hheads

theorem visitHeads_spec (h : Searched head source read 0 d order distance queue) {t : Nat}
    (ht : order[read]? = some t) :
    ∃ state, (List.range kOutDegree).foldlM (visitHead heads t) (distance, queue) = some state ∧
      ∃ d' order', order'[read]? = some t ∧
        Searched head source read kOutDegree d' order' state.1 state.2 := by
  apply foldlM_range_spec fun out (state : List Nat × Output Nat) => ∃ d' order',
    order'[read]? = some t ∧ Searched head source read out d' order' state.1 state.2
  · intro out hout state hstate
    obtain ⟨d', order', ht', h'⟩ := hstate
    have htv := ((h'.seen t).mp (mem_of_getElem? ht')).1
    have hedge := edge_lt htv hout
    have hv := hhead _ hedge
    have hread := hheads.get _ hedge
    have hseen := h'.dist.get _ hv
    have htail := h'.dist.get t htv
    by_cases hnew : d' (head (t * kOutDegree + out)) = kUnreachable
    · obtain ⟨distance', queue', hstore, hput, hpushed⟩ := h'.push ht' hv hnew hout rfl
      refine ⟨(distance', queue'), ?_, _, _, ?_, hpushed⟩
      · simp only [visitHead, hread, hseen, hnew, if_true, htail, hstore, hput, bind_eq_bind,
          bind_some, Option.pure_def]
      · rw [getElem?_append_left (List.getElem?_eq_some_iff.mp ht').1]
        exact ht'
    · refine ⟨state, ?_, d', order', ht', h'.skip ht' ((h'.seen _).mpr ⟨hv, hnew⟩)⟩
      simp [visitHead, hread, hseen, hnew]
  · exact ⟨d, order, ht, h⟩

theorem visitQueue_spec (fuel : Nat) (h : Searched head source read 0 d order distance queue)
    (hread : read ≤ order.length) (hfuel : kVertices ≤ read + fuel) :
    ∃ distances, visitQueue heads fuel read (distance, queue) = some distances ∧
      Distances head source distances := by
  induction fuel generalizing read d order distance queue with
  | zero =>
    have hle := h.length_le
    have hend : read = order.length := by omega
    refine ⟨distance, ?_, (hend ▸ h).distances⟩
    unfold visitQueue
    rw [if_neg]
    rw [h.used]
    omega
  | succ fuel ih =>
    by_cases hmore : read < order.length
    · have ht : order[read]? = some order[read] := getElem?_eq_getElem hmore
      obtain ⟨⟨distance', queue'⟩, hvisit, d', order', ht', h'⟩ := visitHeads_spec hhead hheads h ht
      have hmore' := (List.getElem?_eq_some_iff.mp ht').1
      obtain ⟨distances, hrest, hdist⟩ := ih (h'.advance hmore') hmore' (by omega)
      have htail : queue.buffer[read]? = some order[read] := by
        rw [← ht, ← h.written, Output.written, getElem?_take_of_lt (by rw [h.used]; exact hmore)]
      refine ⟨distances, ?_, hdist⟩
      unfold visitQueue
      simp only [h.used, hmore, if_true, htail, hvisit, bind_eq_bind, bind_some]
      exact hrest
    · have hend : read = order.length := by omega
      refine ⟨distance, ?_, (hend ▸ h).distances⟩
      unfold visitQueue
      rw [if_neg]
      rw [h.used]
      exact hmore

/-- The oracle's search finds the distances, whatever was in its scratch. -/
theorem breadthFirst_spec (hs : source < kVertices) {fuel : Nat} (hfuel : kVertices ≤ fuel)
    (hd : distance.length = kVertices) {slots : List Nat} (hq : slots.length = kVertices) :
    ∃ distances, breadthFirst fuel heads source distance slots = some distances ∧
      Distances head source distances := by
  obtain ⟨distance', hstore, hshows⟩ := (shows_replicate kVertices kUnreachable).store hs 0
  obtain ⟨queue', hput, hwrote⟩ := Output.put_wrote ⟨slots, 0⟩ source
    (by rw [hq]; exact Nat.lt_of_le_of_lt (Nat.zero_le _) hs)
  have horigin : update (fun _ => kUnreachable) source 0 source = 0 := update_self ..
  have hstart : Searched head source 0 0 (update (fun _ => kUnreachable) source 0) [source]
      distance' queue' := by
    refine ⟨hshows, hwrote.written, hwrote.used, hwrote.size.trans hq, nodup_singleton _,
      mem_singleton_self _, ?_, ?_, pairwise_singleton _ _, ?_, ?_, ?_, ?_⟩
    · intro v
      rw [mem_singleton]
      by_cases hv : v = source
      · rw [hv, horigin]
        exact iff_of_true rfl ⟨hs, by decide⟩
      · rw [update_of_ne hv]
        exact iff_of_false hv fun hand => hand.2 rfl
    · intro v hv
      rw [mem_singleton.mp hv, horigin, isDist_zero_iff]
    · intro t _ v hv
      rw [mem_singleton.mp hv, horigin]
      exact Nat.zero_le _
    · intro i v hget
      rw [mem_singleton.mp (mem_of_getElem? hget), horigin]
      exact Nat.zero_le _
    · intro i hi
      exact absurd hi (Nat.not_lt_zero i)
    · intro t _ o ho
      exact absurd ho (Nat.not_lt_zero o)
  obtain ⟨distances, hvisit, hdist⟩ := visitQueue_spec hhead hheads fuel hstart (Nat.zero_le _)
    (by omega)
  refine ⟨distances, ?_, hdist⟩
  simp only [breadthFirst, hd, hstore, hput, bind_eq_bind, bind_some]
  exact hvisit

end Search

/-- After any events the parallel search is within its moves, or ended with the distances of the
plain one. -/
def EqualsPlain (input : List UInt8) (arena : Arena) (heads distance queue : List Nat) (fuel : Nat)
    (events : List Event) : Prop :=
  ∃ grouped source start decoded expected s moved,
    buildInEdges input arena = some grouped ∧ sourceAt input = some source ∧
    startBfs input grouped = some start ∧ decodeHeads input heads = some decoded ∧
    breadthFirst fuel decoded source distance queue = some expected ∧
    runBfs input grouped events start = some (s, moved) ∧ moved ≤ kMoves ∧
    (finished s = false → ∃ e, moves s e = true) ∧
    (finished s = true → s.dist = expected) ∧ Lists (headOf input) source s

/-- Whatever the events, the parallel search stays within its arrays, ends in so many operations
with the oracle's distances, and its frontier lists each vertex of the level once. -/
theorem parallel_search_equals_plain (input : List UInt8) (hi : input.length = kInputBytes)
    (arena : Arena) (ha : arena.Sized) (heads distance queue : List Nat)
    (hheads : heads.length = kEdges) (hd : distance.length = kVertices)
    (hq : queue.length = kVertices) (fuel : Nat) (hfuel : kVertices ≤ fuel) (events : List Event) :
    EqualsPlain input arena heads distance queue fuel events := by
  have hhead : ∀ e < kEdges, headOf input e < kVertices :=
    fun e he => (headAt_eq hi (Nat.le_of_lt he)).2
  obtain ⟨grouped, hbuild, hsized, hg⟩ := buildInEdges_spec hi ha
  obtain ⟨source, start, hat, hsource, hstart, hsearching, hbudget⟩ := startBfs_spec hi hsized
  obtain ⟨decoded, hdecode, hdecoded⟩ := decodeHeads_spec hi hheads
  obtain ⟨expected, horacle, hexpected⟩ := breadthFirst_spec hhead hdecoded hsource hfuel hd hq
  obtain ⟨⟨s, moved⟩, hrun, hs, hmoved⟩ := runBfs_spec hi hg hsource hsearching events
  refine ⟨grouped, source, start, decoded, expected, s, moved, hbuild, hat, hstart, hdecode, horacle,
    hrun, hbudget ▸ hmoved, hs.progress, ?_, hs.lists hsource hhead⟩
  intro hend
  exact (hs.distances hsource hhead hend).unique hexpected

/-- Vertex 0 leads to vertex 1, and every other edge to vertex 0. -/
def oneEdge : List UInt8 := 1 :: List.replicate (kInputBytes - 1) 0

/-- A step starts, its task takes the edges and lists vertex 1, and it ends. -/
def oneStep : List Event := .main :: List.replicate (kOutDegree + 2) (.task 0 false) ++ [.main]

theorem oneEdge_length : oneEdge.length = kInputBytes := by
  rw [oneEdge, length_cons, length_replicate, Nat.sub_add_cancel (by decide)]

theorem plain_search_of_one_step :
    EqualsPlain oneEdge zeroArena (List.replicate kEdges 0) (List.replicate kVertices 0)
      (List.replicate kVertices 0) kVertices oneStep :=
  parallel_search_equals_plain oneEdge oneEdge_length zeroArena zeroArena_sized
    _ _ _ (length_replicate ..) (length_replicate ..) (length_replicate ..) kVertices
    (Nat.le_refl _) _

end LoadForge.Verification.Graph
