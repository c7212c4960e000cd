import Mathlib
import LoadForge.Workloads.FftButterflies

namespace LoadForge.Workloads.Fft

open Framework List

variable {R : Type} [CommRing R]

theorem isRadix_cases {r : Nat} (h : isRadix r = true) : r = 2 ∨ r = 4 := by
  simp [isRadix, kRadices] at h
  omega

section

variable {w : R} (hw : w ^ (kPoints / 2) = -1) {r n : Nat} (hr : isRadix r = true)
  {g : StageGeometry} (h : Geometry r n g)
include hw hr h

theorem butterflyOf_spec {source : List R}
    {y z : Nat → R} (hsource : Shows source n y) {pass : Pass R} (hout : Shows pass.out n z)
    {butterfly : Nat} (hb : butterfly < g.length * g.tail) :
    ∃ pass', butterflyOf (ringOps w) r g source pass butterfly = some pass' ∧
      Combined w r n g y z butterfly pass pass' := by
  rcases isRadix_cases hr with rfl | rfl
  · exact radix2_spec hsource hout hb h hw
  · exact radix4_spec hsource hout hb h hw

/-- A stage, its butterflies split into tasks in any way and run in any order. -/
theorem stage_spec {tasks : List (Nat × Nat)}
    (hsplit : IsSplit (g.length * g.tail) tasks) {source out : List R} {y : Nat → R}
    (hsource : Shows source n y) (hout : out.length = n) :
    ∃ pass, tasks.foldlM (stageKernel (ringOps w) r g source) { out := out } = some pass ∧
      pass.reads.Perm (range n) ∧ pass.writes.Perm (range n) ∧
      ∃ z, Shows pass.out n z ∧ ∀ butterfly < g.length * g.tail, ∀ b < r,
        z (writeOf g butterfly b) = combined w r g y butterfly b := by
  have hflat : tasks.foldlM (stageKernel (ringOps w) r g source) { out := out } =
      (tasks.flatMap fun range => range' range.1 (range.2 - range.1)).foldlM
        (butterflyOf (ringOps w) r g source) { out := out } := by
    rw [foldlM_flatMap]
    rfl
  rw [hflat]
  rw [IsSplit] at hsplit
  generalize tasks.flatMap (fun range => range' range.1 (range.2 - range.1)) = order at hsplit
  have hnodup : order.Nodup := hsplit.nodup_iff.mpr nodup_range
  refine result_mono (foldlM_spec (fun front (pass : Pass R) =>
    pass.reads = front.flatMap (fun x => (range r).map (readOf r g x)) ∧
    pass.writes = front.flatMap (fun x => (range r).map (writeOf g x)) ∧
    ∃ z, Shows pass.out n z ∧ ∀ butterfly ∈ front, ∀ b < r,
      z (writeOf g butterfly b) = combined w r g y butterfly b) ?_ ?_) ?_
  · intro front x back pass horder hinv
    obtain ⟨hreads, hwrites, z, hz, hdone⟩ := hinv
    have hlt : ∀ x' ∈ order, x' < g.length * g.tail :=
      fun x' hx' => mem_range.mp (hsplit.mem_iff.mp hx')
    have hfresh : x ∉ front := by
      rw [horder] at hnodup
      intro hmem
      exact (nodup_append.mp hnodup).2.2 x hmem x (by simp) rfl
    have hx : x < g.length * g.tail := by
      apply hlt
      rw [horder]
      exact mem_append_right _ (by simp)
    obtain ⟨pass', hbutterfly, hcombined⟩ := butterflyOf_spec hw hr h hsource hz hx
    obtain ⟨z', hz', hothers, hvalues⟩ := hcombined.shows
    refine ⟨pass', hbutterfly, ?_, ?_, z', hz', ?_⟩
    · rw [hcombined.reads, hreads, flatMap_append]
      simp
    · rw [hcombined.writes, hwrites, flatMap_append]
      simp
    · intro x' hx' b hb
      rw [mem_append, mem_singleton] at hx'
      rcases hx' with hmem | heq
      · rw [hothers]
        · exact hdone x' hmem b hb
        · intro b' _ heq
          have hin : x' ∈ order := by
            rw [horder]
            exact mem_append_left _ hmem
          have hsame := (writeOf_inj h (hlt x' hin) hx heq).1
          exact hfresh (hsame ▸ hmem)
      · rw [heq]
        exact hvalues b hb
  · refine ⟨rfl, rfl, _, (shows_getD 0 hout), ?_⟩
    intro butterfly hmem
    exact absurd hmem not_mem_nil
  · intro pass hpass
    obtain ⟨hreads, hwrites, z, hz, hdone⟩ := hpass
    refine ⟨?_, ?_, z, hz, ?_⟩
    · rw [hreads]
      exact (hsplit.flatMap_right _).trans (reads_perm h)
    · rw [hwrites]
      exact (hsplit.flatMap_right _).trans (writes_perm h)
    · intro butterfly hb
      exact hdone butterfly (hsplit.mem_iff.mpr (mem_range.mpr hb))

end

/-- The transforms of the points that are so far apart, side by side. -/
def valueAfter (w : R) (r t stride : Nat) (x : Nat → R) (k i : Nat) : R :=
  dft (w ^ (stride * r ^ (t - k))) (r ^ k) (fun j => x (j * r ^ (t - k) + i % r ^ (t - k)))
    (i / r ^ (t - k))

theorem valueAfter_zero (w : R) (r t stride : Nat) (x : Nat → R) {i : Nat} (hi : i < r ^ t) :
    valueAfter w r t stride x 0 i = x i := by
  rw [valueAfter, Nat.sub_zero, pow_zero, Nat.div_eq_of_lt hi, dft_one, Nat.zero_mul, Nat.zero_add,
    Nat.mod_eq_of_lt hi]

theorem valueAfter_end (w : R) (r t stride : Nat) (x : Nat → R) (i : Nat) :
    valueAfter w r t stride x t i = ∑ j ∈ Finset.range (r ^ t), x j * w ^ (stride * j * i) := by
  rw [valueAfter, Nat.sub_self, pow_zero, Nat.div_one, Nat.mod_one, Nat.mul_one, dft]
  apply Finset.sum_congr rfl
  intro j _
  rw [Nat.mul_one, Nat.add_zero, ← pow_mul, Nat.mul_assoc]

def geometryAt (r t stride k : Nat) : StageGeometry := ⟨r ^ k, r ^ (t - (k + 1)), stride⟩

section Transform

variable {r t stride k : Nat} (hr : 0 < r) (htable : r ^ t * stride = kPoints) (hk : k < t)

include hk in
theorem pow_split : r ^ t = r ^ k * r ^ (t - (k + 1)) * r := by
  rw [← pow_add, ← pow_succ]
  congr 1
  omega

include hr htable hk

theorem geometryAt_spec : Geometry r (r ^ t) (geometryAt r t stride k) :=
  ⟨Nat.pow_pos hr, pow_split hk, htable⟩

theorem combined_valueAfter {w : R} (hone : w ^ kPoints = 1) (x : Nat → R) {v c b : Nat}
    (hc : c < r ^ (t - (k + 1))) :
    combined w r (geometryAt r t stride k) (valueAfter w r t stride x k)
        (v * r ^ (t - (k + 1)) + c) b =
      valueAfter w r t stride x (k + 1) ((b * r ^ k + v) * r ^ (t - (k + 1)) + c) := by
  have htail : r ^ (t - k) = r * r ^ (t - (k + 1)) := by
    rw [← pow_succ']
    congr 1
    omega
  have hpoints : stride * r ^ (t - (k + 1)) * (r * r ^ k) = kPoints := by
    rw [← htable, pow_split (r := r) hk]
    ring
  have hquotient : stride * r ^ (t - (k + 1)) * r ^ k = kPoints / r := by
    apply (Nat.div_eq_of_eq_mul_left hr _).symm
    rw [← hpoints]
    ring
  rw [valueAfter, block_div hc, Nat.mul_add_mod_of_lt hc, pow_succ', Nat.add_comm (b * r ^ k) v,
    dft_mul]
  · apply Finset.sum_congr rfl
    intro a ha
    have hread : readOf r (geometryAt r t stride k) (v * r ^ (t - (k + 1)) + c) a =
        v * r ^ (t - k) + (a * r ^ (t - (k + 1)) + c) := by
      rw [readOf, geometryAt, block_div hc, Nat.mul_add_mod_of_lt hc, htail]
      ring
    have hinside : a * r ^ (t - (k + 1)) + c < r ^ (t - k) := by
      rw [htail]
      exact block_lt (Finset.mem_range.mp ha) hc
    have hdft : valueAfter w r t stride x k
        (readOf r (geometryAt r t stride k) (v * r ^ (t - (k + 1)) + c) a) =
        dft ((w ^ (stride * r ^ (t - (k + 1)))) ^ r) (r ^ k)
          (fun j => x ((r * j + a) * r ^ (t - (k + 1)) + c)) v := by
      rw [hread, valueAfter, block_div hinside, Nat.mul_add_mod_of_lt hinside, ← pow_mul]
      have hroot : stride * r ^ (t - k) = stride * r ^ (t - (k + 1)) * r := by
        rw [htail]
        ring
      rw [hroot]
      apply dft_congr
      intro j _
      congr 1
      rw [htail]
      ring
    rw [hdft]
    congr 2
    · rw [geometryAt, block_div hc, ← pow_mul]
      congr 1
      ring
    · rw [← hquotient, pow_mul]
  · rw [← pow_mul, hpoints, hone]

end Transform

theorem exists_writeOf {r t k : Nat} (stride : Nat) (hr : 0 < r) (hk : k < t) {i : Nat}
    (hi : i < r ^ t) :
    ∃ v < r ^ k, ∃ c < r ^ (t - (k + 1)), ∃ b < r,
      i = (b * r ^ k + v) * r ^ (t - (k + 1)) + c ∧
      i = writeOf (geometryAt r t stride k) (v * r ^ (t - (k + 1)) + c) b := by
  have htail : 0 < r ^ (t - (k + 1)) := Nat.pow_pos hr
  have hlength : 0 < r ^ k := Nat.pow_pos hr
  have hc := Nat.mod_lt i htail
  have hv := Nat.mod_lt (i / r ^ (t - (k + 1))) hlength
  have hb : i / r ^ (t - (k + 1)) / r ^ k < r := by
    rw [Nat.div_div_eq_div_mul, Nat.div_lt_iff_lt_mul (Nat.mul_pos htail hlength)]
    calc i < r ^ t := hi
      _ = r * (r ^ (t - (k + 1)) * r ^ k) := by
        rw [pow_split hk]
        ring
  have hplace : i = (i / r ^ (t - (k + 1)) / r ^ k * r ^ k + i / r ^ (t - (k + 1)) % r ^ k) *
      r ^ (t - (k + 1)) + i % r ^ (t - (k + 1)) := by
    rw [Nat.div_add_mod', Nat.div_add_mod']
  refine ⟨_, hv, _, hc, _, hb, hplace, ?_⟩
  rw [writeOf_eq, geometryAt, block_div hc, Nat.mul_add_mod_of_lt hc]
  exact hplace

structure Staged (w : R) (r t stride : Nat) (input : List R) (k : Nat) (s : Stages R) : Prop where
  length : s.length = r ^ k
  out : s.out.length = r ^ t
  scratch : s.scratch.length = r ^ t
  source : s.source = if k = 0 then .input else targetOf t (k - 1)
  values : Shows (s.buffer input s.source) (r ^ t)
    (valueAfter w r t stride (fun j => input.getD j 0) k)
  stages : s.log.length = k
  once : ∀ accesses ∈ s.log, accesses.1.Perm (List.range (r ^ t)) ∧
    accesses.2.Perm (List.range (r ^ t))

theorem targetOf_ne {t k : Nat} (hk : k < t) :
    (if k = 0 then Place.input else targetOf t (k - 1)) ≠ targetOf t k := by
  by_cases hzero : k = 0
  · rw [if_pos hzero, targetOf]
    split_ifs <;> decide
  · have hparity : (t - 1 - (k - 1)) % 2 = 0 ↔ ¬(t - 1 - k) % 2 = 0 := by omega
    rw [if_neg hzero, targetOf, targetOf]
    by_cases heven : (t - 1 - k) % 2 = 0
    · rw [if_pos heven, if_neg fun hodd => hparity.mp hodd heven]
      decide
    · rw [if_neg heven, if_pos (hparity.mpr heven)]
      decide

theorem targetOf_cases (t k : Nat) : targetOf t k = .out ∨ targetOf t k = .scratch := by
  rw [targetOf]
  split_ifs
  · exact .inl rfl
  · exact .inr rfl

/-- The buffers after a stage has written its target. -/
def Stages.next {C : Type} (s : Stages C) (r : Nat) (target : Place) (pass : Pass C) : Stages C where
  out := if target = .out then pass.out else s.out
  scratch := if target = .out then s.scratch else pass.out
  source := target
  length := s.length * r
  log := s.log ++ [(pass.reads, pass.writes)]

theorem Stages.next_buffer {C : Type} (s : Stages C) (r : Nat) (input : List C) (pass : Pass C)
    (t k : Nat) :
    (s.next r (targetOf t k) pass).buffer input (targetOf t k) = pass.out := by
  rcases targetOf_cases t k with htarget | htarget
  · simp [htarget, Stages.next, Stages.buffer]
  · simp [htarget, Stages.next, Stages.buffer]

theorem Staged.step {w : R} (hw : w ^ (kPoints / 2) = -1) {r t stride : Nat}
    (hr : isRadix r = true) (htable : r ^ t * stride = kPoints) {input : List R} {k : Nat}
    {s : Stages R} (h : Staged w r t stride input k s) (hk : k < t)
    {splits : Nat → List (Nat × Nat)} (hsplit : IsSplit (r ^ t / r) (splits k)) :
    ∃ s', runStage (ringOps w) r (r ^ t) t splits input s k = some s' ∧
      Staged w r t stride input (k + 1) s' := by
  have hpos : 0 < r := by
    have hcases := isRadix_cases hr
    omega
  have hone : w ^ kPoints = 1 := by
    have hdouble : kPoints = kPoints / 2 * 2 := rfl
    rw [hdouble, pow_mul, hw, neg_one_sq]
  have hgeometry : (⟨s.length, r ^ t / (r * s.length), kPoints / r ^ t⟩ : StageGeometry) =
      geometryAt r t stride k := by
    have htail : r ^ t / (r * r ^ k) = r ^ (t - (k + 1)) := by
      rw [← pow_succ', Nat.pow_div hk hpos]
    have hstride : kPoints / r ^ t = stride := by
      rw [← htable, Nat.mul_div_cancel_left _ (Nat.pow_pos hpos)]
    rw [h.length, htail, hstride, geometryAt]
  have hbutterflies : r ^ t / r = r ^ k * r ^ (t - (k + 1)) := by
    rw [pow_split hk, Nat.mul_div_cancel _ hpos]
  have htarget : (s.buffer input (targetOf t k)).length = r ^ t := by
    rcases targetOf_cases t k with hout | hscratch
    · rw [hout]
      exact h.out
    · rw [hscratch]
      exact h.scratch
  have hother : s.source ≠ targetOf t k := by
    rw [h.source]
    exact targetOf_ne hk
  rw [hbutterflies] at hsplit
  obtain ⟨pass, hrun, hreads, hwrites, z, hz, hdone⟩ :=
    stage_spec hw hr (geometryAt_spec hpos htable hk) hsplit h.values htarget
  refine ⟨s.next r (targetOf t k) pass, ?_, ?_, ?_, ?_, rfl, ?_, ?_, ?_⟩
  · simp only [runStage, hgeometry, hother, if_false, hrun, Option.bind_eq_bind, Option.bind_some,
      Option.pure_def]
    rfl
  · show s.length * r = r ^ (k + 1)
    rw [h.length, pow_succ]
  · show (if targetOf t k = .out then pass.out else s.out).length = r ^ t
    split_ifs
    · exact hz.size
    · exact h.out
  · show (if targetOf t k = .out then s.scratch else pass.out).length = r ^ t
    split_ifs
    · exact h.scratch
    · exact hz.size
  · show Shows ((s.next r (targetOf t k) pass).buffer input (targetOf t k)) _ _
    rw [Stages.next_buffer]
    apply hz.congr
    intro i hi
    obtain ⟨v, hv, c, hc, b, hb, hplace, hwrite⟩ := exists_writeOf stride hpos hk hi
    have hbutterfly : v * r ^ (t - (k + 1)) + c < r ^ k * r ^ (t - (k + 1)) := block_lt hv hc
    have hvalue := hdone _ hbutterfly b hb
    rw [← hwrite, combined_valueAfter hpos htable hk hone _ hc, ← hplace] at hvalue
    exact hvalue
  · show (s.log ++ [(pass.reads, pass.writes)]).length = k + 1
    rw [length_append, h.stages, length_singleton]
  · intro accesses hmem
    have hmem' : accesses ∈ s.log ++ [(pass.reads, pass.writes)] := hmem
    rw [mem_append, mem_singleton] at hmem'
    rcases hmem' with hold | hnew
    · exact h.once accesses hold
    · rw [hnew]
      exact ⟨hreads, hwrites⟩

theorem countStages_spec {r t : Nat} (hr : 2 ≤ r) {k : Nat} (hk : k ≤ t) {fuel : Nat}
    (hfuel : t - k ≤ fuel) : countStages r (r ^ t) fuel (r ^ k) k = some t := by
  induction fuel generalizing k with
  | zero =>
    have hend : k = t := by omega
    unfold countStages
    rw [hend, if_neg (Nat.lt_irrefl _)]
  | succ fuel ih =>
    unfold countStages
    by_cases hend : k = t
    · rw [hend, if_neg (Nat.lt_irrefl _)]
    · have hlt : r ^ k < r ^ t := Nat.pow_lt_pow_right hr (by omega)
      rw [if_pos hlt, ← pow_succ]
      exact ih (by omega) (by omega)

theorem taskRanges_eq {butterflies n : Nat} (hn : n ≤ taskCount butterflies) :
    ((range n).map (taskRange butterflies)).flatMap
      (fun range => range' range.1 (range.2 - range.1)) =
        range (min (n * kButterfliesPerTask) butterflies) := by
  have hchunk : kButterfliesPerTask = 256 := rfl
  induction n with
  | zero =>
    rw [Nat.zero_mul, Nat.zero_min]
    rfl
  | succ n ih =>
    have hlt : n < (butterflies + kButterfliesPerTask - 1) / kButterfliesPerTask := hn
    rw [hchunk] at hlt
    have hfirst : min (n * kButterfliesPerTask) butterflies = n * kButterfliesPerTask := by
      rw [hchunk]
      omega
    have hlast : (if n * kButterfliesPerTask + kButterfliesPerTask < butterflies then
        n * kButterfliesPerTask + kButterfliesPerTask else butterflies) =
        min ((n + 1) * kButterfliesPerTask) butterflies := by
      rw [Nat.succ_mul]
      split_ifs <;> omega
    have hjoin : n * kButterfliesPerTask +
        (min ((n + 1) * kButterfliesPerTask) butterflies - n * kButterfliesPerTask) =
        min ((n + 1) * kButterfliesPerTask) butterflies := by
      rw [hchunk]
      omega
    rw [range_succ, map_append, flatMap_append, ih (Nat.le_of_lt hn), hfirst]
    simp only [map_cons, map_nil, flatMap_cons, flatMap_nil, append_nil, taskRange]
    rw [hlast, range_eq_range', range_eq_range', ← hjoin, Nat.add_sub_cancel_left,
      ← range'_append_1, Nat.zero_add]

theorem isSplit_taskRange {butterflies : Nat} {order : List Nat}
    (h : IsOrder (taskCount butterflies) order) :
    IsSplit butterflies (order.map (taskRange butterflies)) := by
  have hchunk : kButterfliesPerTask = 256 := rfl
  have hall : min (taskCount butterflies * kButterfliesPerTask) butterflies = butterflies := by
    rw [taskCount, hchunk]
    omega
  have hranges := taskRanges_eq (Nat.le_refl (taskCount butterflies))
  rw [hall] at hranges
  rw [IsSplit, ← hranges]
  exact (Perm.map (taskRange butterflies) h).flatMap_right _

theorem pow_dvd_kPoints {r t : Nat} (hr : isRadix r = true) (h : r ^ t ≤ kPoints) :
    r ^ t ∣ kPoints := by
  rcases isRadix_cases hr with rfl | rfl
  · have htwelve : kPoints = 2 ^ 12 := rfl
    rw [htwelve] at h ⊢
    exact pow_dvd_pow 2 ((Nat.pow_le_pow_iff_right (by decide)).mp h)
  · have hsix : kPoints = 4 ^ 6 := rfl
    rw [hsix] at h ⊢
    exact pow_dvd_pow 4 ((Nat.pow_le_pow_iff_right (by decide)).mp h)

/-- The stages compute the discrete Fourier transform over any ring, split and ordered in any way,
each reading and writing every element once. -/
theorem transform_is_the_dft (w : R) (hw : w ^ (kPoints / 2) = -1) (radix n : Nat)
    (hr : isRadix radix = true) (hpow : ∃ t, n = radix ^ t) (hlow : radix ≤ n) (hhigh : n ≤ kPoints)
    (input out scratch : List R) (hinput : input.length = n) (hout : out.length = n)
    (hscratch : scratch.length = n) (fuel : Nat) (hfuel : n ≤ fuel) :
    (∀ splits : Nat → List (Nat × Nat), (∀ stage, IsSplit (n / radix) (splits stage)) →
      ∃ s, transform (ringOps w) fuel radix n splits input out scratch = some s ∧
        Shows s.out n (fun k => ∑ j ∈ Finset.range n, input.getD j 0 * w ^ (kPoints / n * j * k)) ∧
        radix ^ s.log.length = n ∧ ∀ accesses ∈ s.log, accesses.1.Perm (List.range n) ∧
          accesses.2.Perm (List.range n)) ∧
      ∀ order, IsOrder (taskCount (n / radix)) order →
        IsSplit (n / radix) (order.map (taskRange (n / radix))) := by
  refine ⟨?_, fun order ho => isSplit_taskRange ho⟩
  intro splits hsplits
  obtain ⟨t, rfl⟩ := hpow
  have hradix : 2 ≤ radix := by
    have hcases := isRadix_cases hr
    omega
  have ht : t ≠ 0 := by
    rintro rfl
    rw [pow_zero] at hlow
    omega
  have htable : radix ^ t * (kPoints / radix ^ t) = kPoints :=
    Nat.mul_div_cancel' (pow_dvd_kPoints hr hhigh)
  have hstages : countStages radix (radix ^ t) fuel 1 0 = some t := by
    have hless : t < radix ^ t := Nat.lt_pow_self hradix
    have hcount := countStages_spec hradix (Nat.zero_le t) (by omega : t - 0 ≤ fuel)
    rw [pow_zero] at hcount
    exact hcount
  have hstart : Staged w radix t (kPoints / radix ^ t) input 0 { out := out, scratch := scratch } := by
    refine ⟨(pow_zero radix).symm, hout, hscratch, rfl, ?_, rfl, ?_⟩
    · apply (shows_getD 0 hinput).congr
      intro i hi
      rw [valueAfter_zero w radix t _ _ hi]
    · intro accesses hmem
      exact absurd hmem not_mem_nil
  obtain ⟨s, hrun, hstaged⟩ := foldlM_range_spec
    (fun k s => Staged w radix t (kPoints / radix ^ t) input k s)
    (fun k hk s hs => hs.step hw hr htable hk (hsplits k)) hstart
  refine ⟨s, ?_, ?_, ?_, hstaged.once⟩
  · simp [transform, hstages, hrun]
  · have hvalues := hstaged.values
    have hsource := hstaged.source
    rw [if_neg ht, targetOf, if_pos (by omega)] at hsource
    rw [hsource] at hvalues
    apply hvalues.congr
    intro i _
    exact valueAfter_end w radix t (kPoints / radix ^ t) _ i
  · rw [hstaged.stages]

/-- The root of the table, among the complex numbers. -/
noncomputable def complexRoot : ℂ := Complex.exp (-((2 : ℕ) * Real.pi * Complex.I / (4096 : ℕ)))

theorem complexRoot_pow : complexRoot ^ (kPoints / 2) = -1 := by
  have hhalf : ((kPoints / 2 : Nat) : ℂ) * -((2 : ℕ) * Real.pi * Complex.I / (4096 : ℕ)) =
      -(Real.pi * Complex.I) := by
    have hpoints : kPoints / 2 = 2048 := rfl
    rw [hpoints]
    ring
  rw [complexRoot, ← Complex.exp_nat_mul, hhalf, Complex.exp_neg, Complex.exp_pi_mul_I]
  norm_num

theorem complex_points_are_the_dft :
    ∃ s, transform (ringOps complexRoot) 4 4 4 (fun _ => [(0, 1)]) [1, 2, 3, 4] [0, 0, 0, 0]
        [0, 0, 0, 0] = some s ∧
      Shows s.out 4 (fun k => ∑ j ∈ Finset.range 4,
        ([1, 2, 3, 4] : List ℂ).getD j 0 * complexRoot ^ (kPoints / 4 * j * k)) ∧
      4 ^ s.log.length = 4 ∧ ∀ accesses ∈ s.log, accesses.1.Perm (List.range 4) ∧
        accesses.2.Perm (List.range 4) :=
  (transform_is_the_dft complexRoot complexRoot_pow 4 4 rfl ⟨1, rfl⟩ (Nat.le_refl 4) (by decide)
    [1, 2, 3, 4] [0, 0, 0, 0] [0, 0, 0, 0] rfl rfl rfl 4 (Nat.le_refl 4)).1 (fun _ => [(0, 1)])
    fun _ => Perm.refl _

end LoadForge.Workloads.Fft
