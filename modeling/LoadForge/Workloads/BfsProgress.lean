import LoadForge.Workloads.BfsClaims

namespace LoadForge.Workloads.Graph

open Framework

def Task.rest : Task → Task
  | .add _ after => after
  | .put _ _ after => after
  | task => task

/-- How many operations a task has left at most. -/
def left (head : Nat → Nat) (size index : Nat) : Task → Nat
  | .exchange position out =>
    3 * (min (index * kFrontierChunk + kFrontierChunk) size * kOutDegree -
      (position * kOutDegree + out))
  | .look vertex => 4 * (index * kVertexChunk + kVertexChunk - vertex) +
    (edgesBelow head (index * kVertexChunk + kVertexChunk) - edgesBelow head vertex)
  | .ask vertex place => 4 * (index * kVertexChunk + kVertexChunk - (vertex + 1)) + 3 +
    (edgesBelow head (index * kVertexChunk + kVertexChunk) - place)
  | .claim vertex => 4 * (index * kVertexChunk + kVertexChunk - (vertex + 1)) + 3 +
    (edgesBelow head (index * kVertexChunk + kVertexChunk) - edgesBelow head (vertex + 1))
  | .add _ after => 2 + left head size index after
  | .put _ _ after => 1 + left head size index after
  | .done => 0

def kTaskMoves : Nat := 4 * kVertexChunk + kEdges

section TopDown

variable {head d : Nat → Nat} {frontier : List Nat} {size index : Nat}

/-- The head of an edge of the frontier, counted from its first vertex, has a distance. -/
def Passed (head d : Nat → Nat) (frontier : List Nat) (e : Nat) : Prop :=
  ∀ u, frontier[e / kOutDegree]? = some u →
    d (head (u * kOutDegree + e % kOutDegree)) ≠ kUnreachable

/-- A top-down task with the edges before some edge of its slice passed. -/
def TopDown (head d : Nat → Nat) (frontier : List Nat) (size index : Nat) (task : Task) : Prop :=
  ∃ e, index * kFrontierChunk * kOutDegree ≤ e ∧
    (∀ e', index * kFrontierChunk * kOutDegree ≤ e' → e' < e → Passed head d frontier e') ∧
    (task = .exchange (e / kOutDegree) (e % kOutDegree) ∧
        e < min (index * kFrontierChunk + kFrontierChunk) size * kOutDegree ∨
      task = .done ∧ min (index * kFrontierChunk + kFrontierChunk) size * kOutDegree ≤ e)

section

variable {d' : Nat → Nat} (hd : ∀ v, d v ≠ kUnreachable → d' v ≠ kUnreachable)
include hd

theorem Passed.mono {e : Nat} (h : Passed head d frontier e) : Passed head d' frontier e :=
  fun u hu => hd _ (h u hu)

theorem TopDown.mono {task : Task} (h : TopDown head d frontier size index task) :
    TopDown head d' frontier size index task := by
  obtain ⟨e, hfirst, hpassed, hat⟩ := h
  exact ⟨e, hfirst, fun e' hfirst' hlt => (hpassed e' hfirst' hlt).mono hd, hat⟩

end

theorem topDownFrom_spec (head d : Nat → Nat) (frontier : List Nat) (size : Nat) {position : Nat}
    (hfirst : index * kFrontierChunk ≤ position)
    (hpassed : ∀ e, index * kFrontierChunk * kOutDegree ≤ e → e < position * kOutDegree →
      Passed head d frontier e) :
    TopDown head d frontier size index (topDownFrom size index position) ∧
      left head size index (topDownFrom size index position) ≤
        3 * (min (index * kFrontierChunk + kFrontierChunk) size * kOutDegree -
          position * kOutDegree) := by
  rw [topDownFrom]
  split_ifs with hmore
  · refine ⟨⟨position * kOutDegree, Nat.mul_le_mul_right _ hfirst, hpassed, Or.inl ⟨?_, ?_⟩⟩, ?_⟩
    · rw [Nat.mul_div_cancel _ (by decide), Nat.mul_mod_left]
    · exact Nat.mul_lt_mul_of_pos_right hmore (by decide)
    · rw [left, Nat.add_zero]
  · refine ⟨⟨position * kOutDegree, Nat.mul_le_mul_right _ hfirst, hpassed, Or.inr ⟨rfl, ?_⟩⟩, ?_⟩
    · exact Nat.mul_le_mul_right _ (Nat.le_of_not_lt hmore)
    · exact Nat.zero_le _

/-- What a task knows before an exchange, and when the vertex has a distance after it. -/
theorem TopDown.exchange {position out : Nat}
    (h : TopDown head d frontier size index (.exchange position out)) :
    position < size ∧ out < kOutDegree ∧
      ∀ d' : Nat → Nat, (∀ v, d v ≠ kUnreachable → d' v ≠ kUnreachable) →
        (∀ u, frontier[position]? = some u → d' (head (u * kOutDegree + out)) ≠ kUnreachable) →
        TopDown head d' frontier size index (topDownAfter size index position out) ∧
          left head size index (topDownAfter size index position out) + 3 ≤
            left head size index (.exchange position out) := by
  have hout : kOutDegree = 8 := rfl
  obtain ⟨e, hfirst, hpassed, ⟨htask, hlt⟩ | ⟨htask, _⟩⟩ := h
  swap
  · exact absurd htask (by simp)
  obtain ⟨hp, ho⟩ := Task.exchange.inj htask
  have hedge : position * kOutDegree + out = e := by
    rw [hp, ho, Nat.mul_comm]
    exact Nat.div_add_mod e kOutDegree
  have hinside : position < min (index * kFrontierChunk + kFrontierChunk) size := by
    rw [hp]
    exact (Nat.div_lt_iff_lt_mul (by decide)).mpr hlt
  have hslice : index * kFrontierChunk ≤ position := by
    rw [hp]
    exact (Nat.le_div_iff_mul_le (by decide)).mpr hfirst
  have hlast : out < kOutDegree := ho ▸ Nat.mod_lt e (by decide)
  refine ⟨Nat.lt_of_lt_of_le hinside (Nat.min_le_right _ _), hlast, ?_⟩
  intro d' hd hnow
  have hall : ∀ e', index * kFrontierChunk * kOutDegree ≤ e' → e' < e + 1 →
      Passed head d' frontier e' := by
    intro e' hfirst' hlt'
    rcases Nat.lt_succ_iff_lt_or_eq.mp hlt' with hbefore | hlast
    · exact (hpassed e' hfirst' hbefore).mono hd
    · intro u hu
      rw [hlast, ← hp] at hu
      rw [hlast, ← ho]
      exact hnow u hu
  have hleft : left head size index (.exchange position out) =
      3 * (min (index * kFrontierChunk + kFrontierChunk) size * kOutDegree - e) := by
    rw [left, hedge]
  rw [topDownAfter, hleft]
  split_ifs with hmore
  · refine ⟨⟨e + 1, Nat.le_succ_of_le hfirst, hall, Or.inl ⟨?_, ?_⟩⟩, ?_⟩
    · rw [hout] at *
      congr 1 <;> omega
    · rw [hout] at *
      omega
    · rw [left, ← Nat.add_assoc, hedge]
      omega
  · have hnext : (position + 1) * kOutDegree = e + 1 := by
      rw [Nat.succ_mul]
      omega
    have hbefore : ∀ e', index * kFrontierChunk * kOutDegree ≤ e' →
        e' < (position + 1) * kOutDegree → Passed head d' frontier e' := by
      rw [hnext]
      exact hall
    have hslice' : index * kFrontierChunk ≤ position + 1 := Nat.le_succ_of_le hslice
    obtain ⟨htop, hrest⟩ := topDownFrom_spec head d' frontier size hslice' hbefore
    refine ⟨htop, ?_⟩
    rw [hnext] at hrest
    omega

theorem TopDown.passed (h : TopDown head d frontier size index .done) {e : Nat}
    (hfirst : index * kFrontierChunk * kOutDegree ≤ e)
    (hlast : e < min (index * kFrontierChunk + kFrontierChunk) size * kOutDegree) :
    Passed head d frontier e := by
  obtain ⟨e', _, hpassed, ⟨htask, _⟩ | ⟨_, hle⟩⟩ := h
  · exact absurd htask (by simp)
  · exact hpassed e hfirst (Nat.lt_of_lt_of_le hlast hle)

end TopDown

section BottomUp

variable {head b d : Nat → Nat} {level index : Nat}

/-- A vertex that has a distance, or none of whose edges comes from the level. -/
def Settled (head b d : Nat → Nat) (level v : Nat) : Prop :=
  d v ≠ kUnreachable ∨ ∀ e < kEdges, head e = v → b (tailOf e) ≠ level

/-- The vertices before it are settled, and the others are as when the step began. -/
inductive BottomUpAt (head b : Nat → Nat) (level index v : Nat) : Task → Prop
  | look (h : v < index * kVertexChunk + kVertexChunk) : BottomUpAt head b level index v (.look v)
  | ask (q : Nat) (h : v < index * kVertexChunk + kVertexChunk) (hb : b v = kUnreachable)
      (hq : q < (inEdges head kEdges v).length)
      (hno : ∀ e ∈ (inEdges head kEdges v).take q, b (tailOf e) ≠ level) :
      BottomUpAt head b level index v (.ask v (edgesBelow head v + q))
  | claim (e : Nat) (h : v < index * kVertexChunk + kVertexChunk) (hb : b v = kUnreachable)
      (he : e < kEdges) (hhead : head e = v) (htail : b (tailOf e) = level) :
      BottomUpAt head b level index v (.claim v)
  | done (h : v = index * kVertexChunk + kVertexChunk) : BottomUpAt head b level index v .done

def BottomUp (head b d : Nat → Nat) (level index : Nat) (task : Task) : Prop :=
  ∃ v, index * kVertexChunk ≤ v ∧
    (∀ u, index * kVertexChunk ≤ u → u < v → Settled head b d level u) ∧
    (∀ u, v ≤ u → u < index * kVertexChunk + kVertexChunk → d u = b u) ∧
    BottomUpAt head b level index v task

theorem BottomUp.other {task : Task} (h : BottomUp head b d level index task) {w value : Nat}
    (hw : w / kVertexChunk ≠ index) (hvalue : value ≠ kUnreachable) :
    BottomUp head b (Function.update d w value) level index task := by
  have hchunk : kVertexChunk = 512 := rfl
  obtain ⟨v, hfirst, hsettled, hsame, hat⟩ := h
  refine ⟨v, hfirst, ?_, ?_, hat⟩
  · intro u hu huv
    rcases hsettled u hu huv with hd | hno
    · refine Or.inl ?_
      by_cases huw : u = w
      · rw [huw, Function.update_self]
        exact hvalue
      · rw [Function.update_of_ne huw]
        exact hd
    · exact Or.inr hno
  · intro u hu hlast
    have huw : u ≠ w := by
      intro heq
      rw [← heq, hchunk] at hw
      rw [hchunk] at hlast hfirst
      omega
    rw [Function.update_of_ne huw]
    exact hsame u hu hlast

section

variable {v : Nat} (hfirst : index * kVertexChunk ≤ v)
  (hsettled : ∀ u, index * kVertexChunk ≤ u → u < v → Settled head b d level u)
  (hsame : ∀ u, v ≤ u → u < index * kVertexChunk + kVertexChunk → d u = b u)
include hfirst hsettled hsame

theorem bottomUpFrom_spec (hlast : v ≤ index * kVertexChunk + kVertexChunk) (size : Nat) :
    BottomUp head b d level index (bottomUpFrom index v) ∧
      left head size index (bottomUpFrom index v) ≤
        4 * (index * kVertexChunk + kVertexChunk - v) +
          (edgesBelow head (index * kVertexChunk + kVertexChunk) - edgesBelow head v) := by
  rw [bottomUpFrom]
  split_ifs with hmore
  · exact ⟨⟨v, hfirst, hsettled, hsame, .look hmore⟩, Nat.le_refl _⟩
  · exact ⟨⟨v, hfirst, hsettled, hsame, .done (by omega)⟩, Nat.zero_le _⟩

/-- The next vertex, when one is settled. -/
theorem BottomUp.next {d' : Nat → Nat} (hlast : v < index * kVertexChunk + kVertexChunk)
    (hother : ∀ u, u ≠ v → d' u = d u) (hv : Settled head b d' level v) (size : Nat) :
    BottomUp head b d' level index (bottomUpFrom index (v + 1)) ∧
      left head size index (bottomUpFrom index (v + 1)) ≤
        4 * (index * kVertexChunk + kVertexChunk - (v + 1)) +
          (edgesBelow head (index * kVertexChunk + kVertexChunk) - edgesBelow head (v + 1)) := by
  refine bottomUpFrom_spec (by omega) ?_ ?_ (by omega) size
  · intro u hu huv
    rcases Nat.lt_succ_iff_lt_or_eq.mp huv with hlt | heq
    · rw [Settled, hother u (by omega)]
      exact hsettled u hu hlt
    · rw [heq]
      exact hv
  · intro u hu hlast'
    rw [hother u (by omega)]
    exact hsame u (by omega) hlast'

theorem askFrom_spec {arena : Arena} (hg : Grouped head arena.offsets arena.tails) {q : Nat}
    (hindex : index < kVertices / kVertexChunk) (hlast : v < index * kVertexChunk + kVertexChunk)
    (hb : b v = kUnreachable) (hq : q ≤ (inEdges head kEdges v).length)
    (hno : ∀ e ∈ (inEdges head kEdges v).take q, b (tailOf e) ≠ level) (size : Nat) :
    ∃ task, askFrom arena index v (edgesBelow head v + q) = some task ∧
      BottomUp head b d level index task ∧ left head size index task ≤
        4 * (index * kVertexChunk + kVertexChunk - (v + 1)) + 3 +
          (edgesBelow head (index * kVertexChunk + kVertexChunk) - (edgesBelow head v + q)) := by
  have hchunks : kVertices / kVertexChunk = 64 := rfl
  have hchunk : kVertexChunk = 512 := rfl
  have hvertices := kVertices_eq
  have hv : v + 1 < kVertices + 1 := by
    rw [hchunk] at hlast
    omega
  have hend := edgesBelow_succ head v
  refine ⟨_, by rw [askFrom, hg.offsets.get _ hv]; rfl, ?_⟩
  split_ifs with hmore
  · exact ⟨⟨v, hfirst, hsettled, hsame, .ask q hlast hb (by omega) hno⟩, Nat.le_refl _⟩
  · have hall : Settled head b d level v := by
      refine Or.inr ?_
      intro e he hhead
      apply hno
      rw [List.take_of_length_le (by omega)]
      exact mem_inEdges.mpr ⟨he, hhead⟩
    obtain ⟨hnext, hleft⟩ := BottomUp.next hfirst hsettled hsame hlast (fun _ _ => rfl) hall size
    refine ⟨hnext, ?_⟩
    have hplace : edgesBelow head v + q = edgesBelow head (v + 1) := by omega
    rw [hplace]
    omega

end

end BottomUp

end LoadForge.Workloads.Graph
