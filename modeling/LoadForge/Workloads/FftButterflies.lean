import Mathlib.Tactic.LinearCombination
import LoadForge.Framework.Blocks
import LoadForge.Framework.Dft
import LoadForge.Workloads.Fft

namespace LoadForge.Workloads.Fft

open Framework List Option

/-- The element of a stage's input that a butterfly takes to be its a-th. -/
def readOf (r : Nat) (g : StageGeometry) (butterfly a : Nat) : Nat :=
  r * (butterfly / g.tail) * g.tail + butterfly % g.tail + a * g.tail

variable (g : StageGeometry)

/-- The element of its output that a butterfly writes b-th. -/
def writeOf (butterfly b : Nat) : Nat :=
  butterfly / g.tail * g.tail + butterfly % g.tail + b * (g.length * g.tail)

structure Geometry (r n : Nat) (g : StageGeometry) : Prop where
  tail_pos : 0 < g.tail
  points : n = g.length * g.tail * r
  table : n * g.stride = kPoints

theorem readOf_zero (r : Nat) (g : StageGeometry) (butterfly : Nat) :
    r * (butterfly / g.tail) * g.tail + butterfly % g.tail = readOf r g butterfly 0 := by
  simp [readOf]

theorem readOf_add (r : Nat) (g : StageGeometry) (butterfly a : Nat) :
    readOf r g butterfly 0 + a * g.tail = readOf r g butterfly a := by
  rw [← readOf_zero, readOf]

theorem writeOf_zero (butterfly : Nat) :
    butterfly / g.tail * g.tail + butterfly % g.tail = writeOf g butterfly 0 := by
  simp [writeOf]

theorem writeOf_add (butterfly b : Nat) :
    writeOf g butterfly 0 + b * (g.length * g.tail) = writeOf g butterfly b := by
  rw [← writeOf_zero, writeOf]

theorem readOf_eq (r : Nat) (g : StageGeometry) (butterfly a : Nat) :
    readOf r g butterfly a = (butterfly / g.tail * r + a) * g.tail + butterfly % g.tail := by
  rw [readOf, Nat.add_mul, Nat.mul_comm r]
  omega

theorem writeOf_eq (butterfly b : Nat) :
    writeOf g butterfly b = (b * g.length + butterfly / g.tail) * g.tail + butterfly % g.tail := by
  rw [writeOf, Nat.add_mul, Nat.mul_assoc b]
  omega

section Places

variable {r n : Nat} {g : StageGeometry} (h : Geometry r n g)

include h

section

variable {butterfly : Nat} (hb : butterfly < g.length * g.tail)
include hb

theorem v_lt :
    butterfly / g.tail < g.length := (Nat.div_lt_iff_lt_mul h.tail_pos).mpr hb

theorem readOf_lt {a : Nat} (ha : a < r) : readOf r g butterfly a < n := by
  have hc := Nat.mod_lt butterfly h.tail_pos
  have hn : n = g.length * r * g.tail := by
    rw [h.points, Nat.mul_assoc, Nat.mul_assoc, Nat.mul_comm r]
  rw [readOf_eq, hn]
  exact block_lt (block_lt (v_lt h hb) ha) hc

theorem writeOf_lt {b : Nat} (hr : b < r) : writeOf g butterfly b < n := by
  have hc := Nat.mod_lt butterfly h.tail_pos
  have hn : n = r * g.length * g.tail := by
    rw [h.points, Nat.mul_comm, Nat.mul_assoc]
  rw [writeOf_eq, hn]
  exact block_lt (block_lt hr (v_lt h hb)) hc

omit hb in
theorem readOf_inj {x y a a' : Nat} (ha : a < r) (ha' : a' < r)
    (heq : readOf r g x a = readOf r g y a') : x = y ∧ a = a' := by
  rw [readOf_eq, readOf_eq] at heq
  obtain ⟨houter, hmod⟩ := block_inj (Nat.mod_lt x h.tail_pos) (Nat.mod_lt y h.tail_pos) heq
  obtain ⟨hdiv, haa⟩ := block_inj ha ha' houter
  exact ⟨Nat.ext_div_mod hdiv hmod, haa⟩

omit hb in
theorem writeOf_inj {x y b b' : Nat} (hx : x < g.length * g.tail) (hy : y < g.length * g.tail)
    (heq : writeOf g x b = writeOf g y b') : x = y ∧ b = b' := by
  rw [writeOf_eq, writeOf_eq] at heq
  obtain ⟨houter, hmod⟩ := block_inj (Nat.mod_lt x h.tail_pos) (Nat.mod_lt y h.tail_pos) heq
  obtain ⟨hbb, hdiv⟩ := block_inj (v_lt h hx) (v_lt h hy) houter
  exact ⟨Nat.ext_div_mod hdiv hmod, hbb⟩

omit hb in
theorem reads_perm : ((range (g.length * g.tail)).flatMap fun butterfly =>
    (range r).map (readOf r g butterfly)).Perm (range n) := by
  rw [h.points]
  apply perm_range_of_blocks (readOf r g)
  · intro x hx a ha
    rw [← h.points]
    exact readOf_lt h hx ha
  · intro x _ a ha y _ a' ha' heq
    exact readOf_inj h ha ha' heq

omit hb in
theorem writes_perm : ((range (g.length * g.tail)).flatMap fun butterfly =>
    (range r).map (writeOf g butterfly)).Perm (range n) := by
  rw [h.points]
  apply perm_range_of_blocks (writeOf g)
  · intro x hx b hb
    rw [← h.points]
    exact writeOf_lt h hx hb
  · intro x hx b _ y hy b' _ heq
    exact writeOf_inj h hx hy heq

theorem twiddle_lt {a : Nat} (ha : a < r) :
    a * (butterfly / g.tail) * g.tail * g.stride < kPoints := by
  have hlt : a * (butterfly / g.tail) < r * g.length := Nat.mul_lt_mul'' ha (v_lt h hb)
  have hstride : 0 < g.stride := by
    rw [Nat.pos_iff_ne_zero]
    intro hzero
    have htable := h.table
    rw [hzero, Nat.mul_zero] at htable
    exact absurd htable (by decide)
  have htable : kPoints = r * g.length * g.tail * g.stride := by
    rw [← h.table, h.points, Nat.mul_comm (g.length * g.tail), Nat.mul_assoc r g.length]
  rw [htable]
  exact Nat.mul_lt_mul_of_pos_right (Nat.mul_lt_mul_of_pos_right hlt h.tail_pos) hstride

end

end Places

variable {R : Type} [CommRing R]

/-- The operations of a ring, and the powers of a root. -/
def ringOps (w : R) : Complexes R where
  times := fun x y => x * y
  plus := fun x y => x + y
  minus := fun x y => x - y
  timesMinusI := fun x => x * w ^ (kPoints / 4)
  kTwiddles := (List.range kPoints).map fun m => w ^ m

@[simp] theorem ringOps_plus (w x y : R) : (ringOps w).plus x y = x + y := rfl

@[simp] theorem ringOps_minus (w x y : R) : (ringOps w).minus x y = x - y := rfl

@[simp] theorem ringOps_timesMinusI (w x : R) :
    (ringOps w).timesMinusI x = x * w ^ (kPoints / 4) := rfl

/-- What a butterfly makes of the elements it reads. -/
def combined (w : R) (r : Nat) (g : StageGeometry) (y : Nat → R) (butterfly b : Nat) : R :=
  ∑ a ∈ Finset.range r, y (readOf r g butterfly a) *
    w ^ (a * (butterfly / g.tail) * g.tail * g.stride) * (w ^ (kPoints / r)) ^ (a * b)

/-- A butterfly reads its elements, writes its own and leaves all others. -/
structure Combined (w : R) (r n : Nat) (g : StageGeometry) (y z : Nat → R) (butterfly : Nat)
    (pass pass' : Pass R) : Prop where
  reads : pass'.reads = pass.reads ++ (List.range r).map (readOf r g butterfly)
  writes : pass'.writes = pass.writes ++ (List.range r).map (writeOf g butterfly)
  shows : ∃ z', Shows pass'.out n z' ∧
    (∀ i, (∀ b < r, i ≠ writeOf g butterfly b) → z' i = z i) ∧
    ∀ b < r, z' (writeOf g butterfly b) = combined w r g y butterfly b

theorem load_spec {C : Type} {source : List C} {n : Nat} {y : Nat → C} (h : Shows source n y)
    (pass : Pass C) {element : Nat} (he : element < n) :
    load source pass element = some (y element, { pass with reads := pass.reads ++ [element] }) := by
  rw [load, h.get element he]
  rfl

theorem stores_spec {C : Type} {r n : Nat} {g : StageGeometry} (h : Geometry r n g)
    {butterfly : Nat} (hb : butterfly < g.length * g.tail) (value : Nat → C) (pass : Pass C)
    {z : Nat → C} (hout : Shows pass.out n z) :
    ∃ pass', (range r).foldlM
        (fun pass b => store pass (writeOf g butterfly b) (value b)) pass = some pass' ∧
      (pass'.reads = pass.reads ∧
        pass'.writes = pass.writes ++ (range r).map (writeOf g butterfly) ∧
        ∃ z', Shows pass'.out n z' ∧ (∀ i, (∀ b < r, i ≠ writeOf g butterfly b) → z' i = z i) ∧
          ∀ b < r, z' (writeOf g butterfly b) = value b) := by
  apply foldlM_range_spec fun k (pass' : Pass C) => pass'.reads = pass.reads ∧
    pass'.writes = pass.writes ++ (range k).map (writeOf g butterfly) ∧
    ∃ z', Shows pass'.out n z' ∧ (∀ i, (∀ b < k, i ≠ writeOf g butterfly b) → z' i = z i) ∧
      ∀ b < k, z' (writeOf g butterfly b) = value b
  · intro k hk pass' hinv
    obtain ⟨hreads, hwrites, z', hshows, hothers, hvalues⟩ := hinv
    obtain ⟨out, hstore, hshows'⟩ := hshows.store (writeOf_lt h hb hk) (value k)
    refine ⟨{ pass' with out := out, writes := pass'.writes ++ [writeOf g butterfly k] }, ?_, hreads,
      ?_, _, hshows', ?_, ?_⟩
    · simp [store, hstore]
    · show pass'.writes ++ [writeOf g butterfly k] = _
      rw [hwrites, range_succ, map_append, append_assoc]
      rfl
    · intro i hi
      rw [Function.update_of_ne (hi k (Nat.lt_succ_self k))]
      exact hothers i fun b hbk => hi b (Nat.lt_succ_of_lt hbk)
    · intro b hbk
      rcases Nat.lt_succ_iff_lt_or_eq.mp hbk with hlt | heq
      · have hne : writeOf g butterfly b ≠ writeOf g butterfly k := by
          intro heq
          exact Nat.ne_of_lt hlt (writeOf_inj h hb hb heq).2
        rw [Function.update_of_ne hne]
        exact hvalues b hlt
      · rw [heq, Function.update_self]
  · refine ⟨rfl, (append_nil _).symm, z, hout, fun i _ => rfl, ?_⟩
    intro b hb0
    exact absurd hb0 (Nat.not_lt_zero b)

theorem twiddled_spec (w : R) {r n : Nat} {g : StageGeometry} (h : Geometry r n g)
    {butterfly a : Nat} (hb : butterfly < g.length * g.tail) (ha : a < r) (x : R) :
    twiddled (ringOps w) g a (butterfly / g.tail) x =
      some (x * w ^ (a * (butterfly / g.tail) * g.tail * g.stride)) := by
  have hget := (shows_map_range kPoints fun m => w ^ m).get _ (twiddle_lt h hb ha)
  rw [twiddled, ringOps, hget]
  rfl

section Kernels

variable {w : R} {n : Nat} {g : StageGeometry} {source : List R} {y z : Nat → R} {pass : Pass R}
variable (hsource : Shows source n y) (hout : Shows pass.out n z) {butterfly : Nat}
variable (hb : butterfly < g.length * g.tail)

include hsource hout hb

theorem radix2_spec (h : Geometry 2 n g) (hw : w ^ (kPoints / 2) = -1) :
    ∃ pass', radix2Butterfly (ringOps w) g source pass butterfly = some pass' ∧
      Combined w 2 n g y z butterfly pass pass' := by
  have hread1 := readOf_add 2 g butterfly 1
  have hwrite1 := writeOf_add g butterfly 1
  rw [Nat.one_mul] at hread1 hwrite1
  have hvalue0 : y (readOf 2 g butterfly 0) + y (readOf 2 g butterfly 1) *
      w ^ (1 * (butterfly / g.tail) * g.tail * g.stride) = combined w 2 g y butterfly 0 := by
    simp only [combined, Finset.sum_range_succ, Finset.sum_range_zero, hw]
    ring
  have hvalue1 : y (readOf 2 g butterfly 0) - y (readOf 2 g butterfly 1) *
      w ^ (1 * (butterfly / g.tail) * g.tail * g.stride) = combined w 2 g y butterfly 1 := by
    simp only [combined, Finset.sum_range_succ, Finset.sum_range_zero, hw]
    ring
  obtain ⟨pass', hstores, hreads, hwrites, hshows⟩ := stores_spec h hb
    (combined w 2 g y butterfly) { pass with
      reads := pass.reads ++ [readOf 2 g butterfly 0] ++ [readOf 2 g butterfly 1] } hout
  refine ⟨pass', ?_, ?_, hwrites, hshows⟩
  · have hlist : range 2 = [0, 1] := rfl
    rw [hlist] at hstores
    simp only [foldlM_cons, foldlM_nil, bind_eq_bind, Option.pure_def, bind_fun_some] at hstores
    have hload := fun pass a (ha : a < 2) => load_spec hsource pass (readOf_lt h hb ha)
    simp only [radix2Butterfly, readOf_zero, hread1, writeOf_zero, hwrite1, hload, Nat.one_lt_two,
      Nat.two_pos, twiddled_spec w h hb, ringOps_plus, ringOps_minus, hvalue0, hvalue1,
      bind_eq_bind, bind_some]
    exact hstores
  · rw [hreads, append_assoc]
    rfl

theorem radix4_spec (h : Geometry 4 n g) (hw : w ^ (kPoints / 2) = -1) :
    ∃ pass', radix4Butterfly (ringOps w) g source pass butterfly = some pass' ∧
      Combined w 4 n g y z butterfly pass pass' := by
  have hread1 := readOf_add 4 g butterfly 1
  have hwrite1 := writeOf_add g butterfly 1
  rw [Nat.one_mul] at hread1 hwrite1
  have hroot : (w ^ (kPoints / 4)) ^ 2 = -1 := by
    rw [← pow_mul]
    exact hw
  generalize hi : w ^ (kPoints / 4) = i at hroot
  generalize hz0 : y (readOf 4 g butterfly 0) = z0
  generalize hz1 : y (readOf 4 g butterfly 1) *
    w ^ (1 * (butterfly / g.tail) * g.tail * g.stride) = z1
  generalize hz2 : y (readOf 4 g butterfly 2) *
    w ^ (2 * (butterfly / g.tail) * g.tail * g.stride) = z2
  generalize hz3 : y (readOf 4 g butterfly 3) *
    w ^ (3 * (butterfly / g.tail) * g.tail * g.stride) = z3
  have hvalue : ∀ b, combined w 4 g y butterfly b =
      z0 + z1 * i ^ (1 * b) + z2 * i ^ (2 * b) + z3 * i ^ (3 * b) := by
    intro b
    simp only [combined, Finset.sum_range_succ, Finset.sum_range_zero, hi, hz0, hz1, hz2, hz3]
    simp
  have hvalue0 : z0 + z2 + (z1 + z3) = combined w 4 g y butterfly 0 := by
    rw [hvalue]
    ring
  have hvalue1 : z0 - z2 + (z1 - z3) * i = combined w 4 g y butterfly 1 := by
    rw [hvalue]
    linear_combination (-(z2 + z3 * i)) * hroot
  have hvalue2 : z0 + z2 - (z1 + z3) = combined w 4 g y butterfly 2 := by
    rw [hvalue]
    linear_combination (-(z1 + z2 * (i ^ 2 - 1) + z3 * (i ^ 4 - i ^ 2 + 1))) * hroot
  have hvalue3 : z0 - z2 - (z1 - z3) * i = combined w 4 g y butterfly 3 := by
    rw [hvalue]
    linear_combination (-(z1 * i + z2 * (i ^ 4 - i ^ 2 + 1) +
      z3 * i * (i ^ 4 + 1) * (i ^ 2 - 1))) * hroot
  obtain ⟨pass', hstores, hreads, hwrites, hshows⟩ := stores_spec h hb
    (combined w 4 g y butterfly) { pass with
      reads := pass.reads ++ [readOf 4 g butterfly 0] ++ [readOf 4 g butterfly 1] ++
        [readOf 4 g butterfly 2] ++ [readOf 4 g butterfly 3] } hout
  refine ⟨pass', ?_, ?_, hwrites, hshows⟩
  · have hlist : range 4 = [0, 1, 2, 3] := rfl
    rw [hlist] at hstores
    simp only [foldlM_cons, foldlM_nil, bind_eq_bind, Option.pure_def, bind_fun_some] at hstores
    have hload := fun pass a (ha : a < 4) => load_spec hsource pass (readOf_lt h hb ha)
    simp only [radix4Butterfly, readOf_zero, hread1, readOf_add, writeOf_zero, hwrite1, writeOf_add,
      hload, Nat.reduceLT, twiddled_spec w h hb, ringOps_plus, ringOps_minus, ringOps_timesMinusI,
      hi, hz0, hz1, hz2, hz3, hvalue0, hvalue1, hvalue2, hvalue3, bind_eq_bind, bind_some]
    exact hstores
  · rw [hreads, append_assoc, append_assoc, append_assoc]
    rfl

end Kernels

end LoadForge.Workloads.Fft
