import LoadForge.Workloads.BfsProgress

namespace LoadForge.Workloads.Graph

open Framework List Function Option

/-- The distances up to the level are there, and the frontier lists the level once. -/
structure Level (head : Nat → Nat) (source level : Nat) (b : Nat → Nat) (frontier : List Nat)
    (size : Nat) : Prop where
  length : frontier.length = kVertices
  size_le : size ≤ kVertices
  level_le : level ≤ kVertices
  nodup : (frontier.take size).Nodup
  mem : ∀ v, v ∈ frontier.take size ↔ v < kVertices ∧ b v = level
  right : ∀ v < kVertices, b v ≠ kUnreachable → b v ≤ level ∧ IsDist (Leads head) source (b v) v
  every : ∀ v < kVertices, ∀ n ≤ level, IsDist (Leads head) source n v → b v = n

def Progress (head b d : Nat → Nat) (level : Nat) (frontier : List Nat) (size : Nat) (mode : Mode)
    (index : Nat) (task : Task) : Prop :=
  if mode = .bottomUp then BottomUp head b d level index task
  else TopDown head d frontier size index task

def taskCount (size : Nat) : Mode → Nat
  | .bottomUp => kVertices / kVertexChunk
  | _ => (size + kFrontierChunk - 1) / kFrontierChunk

structure StepRuns (head : Nat → Nat) (source : Nat) (b d : Nat → Nat) (t : Nat → Task)
    (order : List Nat) (s : Search) (r : Running) : Prop where
  level : Level head source s.level b s.frontier s.size
  began : Shows r.began kVertices b
  dist : Shows s.dist kVertices d
  tasks : Shows r.tasks (taskCount s.size r.mode) t
  sound : ∀ v < kVertices, d v = b v ∨ b v = kUnreachable ∧ d v = s.level + 1 ∧
    ∃ u < kVertices, b u = s.level ∧ Leads head u v
  claims : Claims s.level d (taskCount s.size r.mode) t order s.spare
  found : s.found = order.length
  progress : ∀ i < taskCount s.size r.mode,
    Progress head b d s.level (s.frontier.take s.size) s.size r.mode i (t i).rest

theorem Progress.plain {head b d : Nat → Nat} {level : Nat} {frontier : List Nat} {size : Nat}
    {mode : Mode} {index : Nat} {task : Task}
    (h : Progress head b d level frontier size mode index task) : task.Plain ∧ task.rest = task := by
  rw [Progress] at h
  split_ifs at h
  · obtain ⟨v, _, _, _, hat⟩ := h
    cases hat <;> exact ⟨⟨rfl, rfl⟩, rfl⟩
  · obtain ⟨e, _, _, ⟨rfl, _⟩ | ⟨rfl, _⟩⟩ := h <;> exact ⟨⟨rfl, rfl⟩, rfl⟩

section Steps

variable {head : Nat → Nat} {source : Nat} {b d : Nat → Nat} {t : Nat → Task} {order : List Nat}
variable {s : Search} {r : Running} {i : Nat}

theorem Level.small (h : Level head source s.level b s.frontier s.size) :
    (s.level + 1) % 2 ^ 32 = s.level + 1 ∧ s.level + 1 ≠ kUnreachable ∧ s.level ≠ kUnreachable := by
  have hle := h.level_le
  have hvertices := kVertices_eq
  have hunreachable : kUnreachable = 4294967295 := rfl
  exact ⟨Nat.mod_eq_of_lt (by omega), by omega, by omega⟩

theorem ne_update {value : Nat} (hvalue : value ≠ kUnreachable) (w : Nat) :
    ∀ v, d v ≠ kUnreachable → update d w value v ≠ kUnreachable := by
  intro v hv
  by_cases hvw : v = w
  · rw [hvw, update_self]
    exact hvalue
  · rw [update_of_ne hvw]
    exact hv

section

variable (h : StepRuns head source b d t order s r) {v : Nat} (hv : v < kVertices)
include h hv

theorem StepRuns.of_unreachable (hd : d v = kUnreachable) : b v = kUnreachable := by
  rcases h.sound v hv with hsame | ⟨hb, _⟩
  · rw [← hsame, hd]
  · exact hb

theorem StepRuns.level_iff : d v = s.level ↔ b v = s.level := by
  have hsmall := h.level.small
  rcases h.sound v hv with hsame | ⟨hb, hd, _⟩
  · rw [hsame]
  · rw [hb, hd]
    exact iff_of_false (by omega) (Ne.symm hsmall.2.2)

theorem StepRuns.loadDist_level (stale : Bool) :
    ∃ word, loadDist s r stale v = some word ∧ (word = s.level ↔ b v = s.level) := by
  cases stale with
  | true => exact ⟨b v, h.began.get v hv, Iff.rfl⟩
  | false => exact ⟨d v, h.dist.get v hv, h.level_iff hv⟩

end

theorem rest_update {P : Nat → Task → Prop} {n : Nat} {task : Task} (h : ∀ j < n, P j (t j).rest)
    (hnew : P i task.rest) : ∀ j < n, P j (update t i task j).rest := by
  intro j hj
  by_cases hji : j = i
  · rw [hji, update_self]
    exact hnew
  · rw [update_of_ne hji]
    exact h j hj

section

variable (h : StepRuns head source b d t order s r) (hi : i < taskCount s.size r.mode)
  (hold : (t i).Plain)
include h hi hold

/-- A task goes on with nothing changed around it. -/
theorem StepRuns.keep {task : Task}
    (hnew : Progress head b d s.level (s.frontier.take s.size) s.size r.mode i task) :
    StepRuns head source b d (update t i task) order s
      { r with tasks := r.tasks.set i task } := by
  refine ⟨h.level, h.began, h.dist, h.tasks.set hi task, h.sound, h.claims.keep hi hold hnew.plain.1,
    h.found, rest_update h.progress ?_⟩
  rw [hnew.plain.2]
  exact hnew

theorem StepRuns.claim {w : Nat} (hw : w < kVertices)
    (hd : d w = kUnreachable) {u : Nat} (hu : u < kVertices) (hlevel : b u = s.level)
    (hedge : Leads head u w) (hmine : r.mode = .bottomUp → w / kVertexChunk = i) {after : Task}
    (hnew : Progress head b (update d w (s.level + 1)) s.level (s.frontier.take s.size)
      s.size r.mode i after) :
    ∃ dist, storeCell s.dist w ((s.level + 1) % 2 ^ 32) = some dist ∧
      StepRuns head source b (update d w (s.level + 1))
        (update t i (.add w after)) order { s with dist := dist }
        { r with tasks := r.tasks.set i (.add w after) } := by
  obtain ⟨hword, hfar, _⟩ := h.level.small
  obtain ⟨dist, hstore, hdist⟩ := h.dist.store hw (s.level + 1)
  refine ⟨dist, by rw [hword]; exact hstore, h.level, h.began, hdist, h.tasks.set hi _, ?_,
    h.claims.claim hi hold hw (by rw [hd]; exact Ne.symm hfar) after, h.found, ?_⟩
  · intro v hv
    by_cases hvw : v = w
    · rw [hvw, update_self]
      exact .inr ⟨h.of_unreachable hw hd, rfl, u, hu, hlevel, hedge⟩
    · rw [update_of_ne hvw]
      exact h.sound v hv
  · intro j hj
    by_cases hji : j = i
    · rw [hji, update_self]
      exact hnew
    · rw [update_of_ne hji]
      have hbefore := h.progress j hj
      simp only [Progress] at hbefore ⊢
      split_ifs at hbefore ⊢ with hmode
      · exact hbefore.other (by rw [hmine hmode]; exact Ne.symm hji) hfar
      · exact hbefore.mono (ne_update hfar w)

end

/-- One operation: within the arrays, the invariant kept, and less left. -/
structure Advanced (head : Nat → Nat) (source : Nat) (b : Nat → Nat) (s : Search) (r : Running)
    (i before : Nat) (s' : Search) (task : Task) : Prop where
  frame : s'.frontier = s.frontier ∧ s'.size = s.size ∧ s'.level = s.level
  left_lt : left head s.size i task < before
  runs : ∃ d t order, StepRuns head source b d t order s' { r with tasks := r.tasks.set i task }

/-- A task's next operation is made, and the step has advanced. -/
def Moves (input : List UInt8) (arena : Arena) (head : Nat → Nat) (source : Nat) (b : Nat → Nat)
    (s : Search) (r : Running) (i : Nat) (stale : Bool) (task : Task) : Prop :=
  ∃ s' task', stepTask input arena s r i stale task = some (s', task') ∧
    Advanced head source b s r i (left head s.size i task) s' task'

theorem step_exchange {input : List UInt8} (hinput : input.length = kInputBytes) (arena : Arena)
    (h : StepRuns (headOf input) source b d t order s r) (hi : i < taskCount s.size r.mode)
    {position out : Nat} (htask : t i = .exchange position out) (stale : Bool) :
    Moves input arena (headOf input) source b s r i stale (t i) := by
  have hold : (t i).Plain := by rw [htask]; exact ⟨rfl, rfl⟩
  have hprogress := h.progress i hi
  simp only [htask, Task.rest, Progress] at hprogress
  split_ifs at hprogress with hmode
  · obtain ⟨v, _, _, _, hat⟩ := hprogress
    cases hat
  obtain ⟨hposition, hout, hafter⟩ := hprogress.exchange
  have hlength : position < (s.frontier.take s.size).length := by
    rw [length_take, h.level.length, Nat.min_eq_left h.level.size_le]
    exact hposition
  have hget : (s.frontier.take s.size)[position]? =
      some ((s.frontier.take s.size)[position]) := getElem?_eq_getElem hlength
  generalize (s.frontier.take s.size)[position] = u at hget
  obtain ⟨hu, hbu⟩ := (h.level.mem u).mp (mem_of_getElem? hget)
  have hedge := edge_lt hu hout
  obtain ⟨hhead, hw⟩ := headAt_eq hinput (Nat.le_of_lt hedge)
  have hread := h.dist.get _ hw
  have hfar := h.level.small.2.1
  rw [htask]
  by_cases hnew : d (headOf input (u * kOutDegree + out)) = kUnreachable
  · obtain ⟨htop, hleft⟩ := hafter
      (update d (headOf input (u * kOutDegree + out)) (s.level + 1)) (ne_update hfar _) (by
      intro u' hu'
      rw [some.inj (hu'.symm.trans hget), update_self]
      exact hfar)
    have hgoes : Progress (headOf input) b
        (update d (headOf input (u * kOutDegree + out)) (s.level + 1)) s.level
        (s.frontier.take s.size) s.size r.mode i (topDownAfter s.size i position out) := by
      rw [Progress, if_neg hmode]
      exact htop
    obtain ⟨dist, hstore, hruns⟩ := h.claim hi hold hw hnew hu hbu ⟨out, hout, rfl⟩
      (fun hbottom => absurd hbottom hmode) hgoes
    refine ⟨{ s with dist := dist }, .add _ (topDownAfter s.size i position out), ?_,
      ⟨rfl, rfl, rfl⟩, ?_, _, _, _, hruns⟩
    · simp only [stepTask, hget, hhead, hread, hnew, if_true, hstore, bind_eq_bind,
        bind_some, Option.pure_def]
    · show 2 + left (headOf input) s.size i (topDownAfter s.size i position out) < _
      omega
  · obtain ⟨htop, hleft⟩ := hafter d (fun v hv => hv) (by
      intro u' hu'
      rw [some.inj (hu'.symm.trans hget)]
      exact hnew)
    refine ⟨s, topDownAfter s.size i position out, ?_, ⟨rfl, rfl, rfl⟩, by omega, _, _, _,
      h.keep hi hold (by rw [Progress, if_neg hmode]; exact htop)⟩
    simp [stepTask, hget, hhead, hread, hnew]

theorem StepRuns.bottomUp (h : StepRuns head source b d t order s r)
    (hi : i < taskCount s.size r.mode) (hrest : (t i).rest = t i) {v : Nat}
    (hv : t i = .look v ∨ (∃ place, t i = .ask v place) ∨ t i = .claim v) :
    r.mode = .bottomUp ∧ i < kVertices / kVertexChunk ∧ v < kVertices ∧ v / kVertexChunk = i ∧
      BottomUpAt head b s.level i v (t i) ∧ i * kVertexChunk ≤ v ∧
      v < i * kVertexChunk + kVertexChunk ∧
      (∀ u, i * kVertexChunk ≤ u → u < v → Settled head b d s.level u) ∧
      ∀ u, v ≤ u → u < i * kVertexChunk + kVertexChunk → d u = b u := by
  have hchunks : kVertices / kVertexChunk = 64 := rfl
  have hchunk : kVertexChunk = 512 := rfl
  have hvertices := kVertices_eq
  have hprogress := h.progress i hi
  rw [hrest, Progress] at hprogress
  split_ifs at hprogress with hmode
  · have hi' : i < kVertices / kVertexChunk := by
      rw [hmode] at hi
      exact hi
    obtain ⟨v', hfirst, hsettled, hsame, hat⟩ := hprogress
    have hmine : v' = v ∧ v' < i * kVertexChunk + kVertexChunk := by
      generalize htask : t i = task at hv hat
      cases hat with
      | look hlast =>
        simp only [Task.look.injEq, reduceCtorEq, exists_const, or_false] at hv
        exact ⟨hv, hlast⟩
      | ask q hlast =>
        simp only [Task.ask.injEq, reduceCtorEq, or_false, false_or] at hv
        obtain ⟨_, hv, _⟩ := hv
        exact ⟨hv, hlast⟩
      | claim e hlast =>
        simp only [Task.claim.injEq, reduceCtorEq, exists_const, false_or] at hv
        exact ⟨hv, hlast⟩
      | done => simp at hv
    obtain ⟨rfl, hlast⟩ := hmine
    refine ⟨hmode, hi', ?_, ?_, hat, hfirst, hlast, hsettled, hsame⟩
    · rw [hchunk] at hlast
      omega
    · rw [hchunk] at hfirst hlast ⊢
      omega
  · obtain ⟨e, _, _, ⟨htask, _⟩ | ⟨htask, _⟩⟩ := hprogress
    · rw [htask] at hv
      simp at hv
    · rw [htask] at hv
      simp at hv

variable (input : List UInt8) (h : StepRuns head source b d t order s r)
variable (hi : i < taskCount s.size r.mode) {arena : Arena} {v : Nat} (stale : Bool)

include h hi

theorem step_look (hg : Grouped head arena.offsets arena.tails) (htask : t i = .look v) :
    Moves input arena head source b s r i stale (t i) := by
  have hold : (t i).Plain := by rw [htask]; exact ⟨rfl, rfl⟩
  obtain ⟨hmode, hindex, hv, _, _, hfirst, hlast, hsettled, hsame⟩ :=
    h.bottomUp hi (by rw [htask]; rfl) (.inl htask)
  have hnow : d v = b v := hsame v (Nat.le_refl v) hlast
  have hread : loadDist s r stale v = some (b v) := by
    cases stale with
    | true => exact h.began.get v hv
    | false => rw [← hnow]; exact h.dist.get v hv
  have hleft : left head s.size i (.look v) = 4 * (i * kVertexChunk + kVertexChunk - v) +
    (edgesBelow head (i * kVertexChunk + kVertexChunk) - edgesBelow head v) := rfl
  rw [htask]
  by_cases hnew : b v = kUnreachable
  · obtain ⟨task, hask, hbottom, hless⟩ := askFrom_spec hfirst hsettled hsame hg hindex hlast hnew
      (Nat.zero_le _) (fun e he => absurd he (by simp)) s.size
    rw [Nat.add_zero] at hask hless
    refine ⟨s, task, ?_, ⟨rfl, rfl, rfl⟩, by omega, _, _, _,
      h.keep hi hold (by rw [Progress, if_pos hmode]; exact hbottom)⟩
    have hoffset := hg.offsets.get v (by omega)
    simp [stepTask, hread, hnew, hoffset, hask]
  · have hdone : Settled head b d s.level v := .inl (by rw [hnow]; exact hnew)
    obtain ⟨hbottom, hless⟩ :=
      BottomUp.next hfirst hsettled hsame hlast (fun _ _ => rfl) hdone s.size
    refine ⟨s, bottomUpFrom i (v + 1), ?_, ⟨rfl, rfl, rfl⟩, ?_, _, _, _,
      h.keep hi hold (by rw [Progress, if_pos hmode]; exact hbottom)⟩
    · simp [stepTask, hread, hnew]
    · have hmono : edgesBelow head v ≤ edgesBelow head (v + 1) :=
        edgesBelow_mono head (Nat.le_succ v)
      omega

theorem step_ask (hg : Grouped head arena.offsets arena.tails) {place : Nat}
    (htask : t i = .ask v place) :
    Moves input arena head source b s r i stale (t i) := by
  have hold : (t i).Plain := by rw [htask]; exact ⟨rfl, rfl⟩
  obtain ⟨hmode, hindex, hv, _, hat, hfirst, hlast, hsettled, hsame⟩ :=
    h.bottomUp hi (by rw [htask]; rfl) (.inr (.inl ⟨place, htask⟩))
  rw [htask] at hat ⊢
  cases hat with
  | ask q _ hb hq hno =>
    have hget : (inEdges head kEdges v)[q]? = some ((inEdges head kEdges v)[q]) :=
      getElem?_eq_getElem hq
    generalize (inEdges head kEdges v)[q] = e at hget
    obtain ⟨he, hhead⟩ := mem_inEdges.mp (mem_of_getElem? hget)
    have htail := hg.tails v hv q e hget
    obtain ⟨word, hread, hword⟩ := h.loadDist_level (tailOf_eq he).2 stale
    have hend := edgesBelow_succ head v
    have hmono : edgesBelow head (v + 1) ≤ edgesBelow head (i * kVertexChunk + kVertexChunk) :=
      edgesBelow_mono head hlast
    have hleft : left head s.size i (.ask v (edgesBelow head v + q)) =
      4 * (i * kVertexChunk + kVertexChunk - (v + 1)) + 3 +
        (edgesBelow head (i * kVertexChunk + kVertexChunk) - (edgesBelow head v + q)) := rfl
    by_cases hlevel : b (tailOf e) = s.level
    · have hbottom : BottomUp head b d s.level i (.claim v) :=
        ⟨v, hfirst, hsettled, hsame, .claim e hlast hb he hhead hlevel⟩
      refine ⟨s, .claim v, ?_, ⟨rfl, rfl, rfl⟩, ?_, _, _, _,
        h.keep hi hold (by rw [Progress, if_pos hmode]; exact hbottom)⟩
      · simp [stepTask, htail, hread, hword.mpr hlevel]
      · show 4 * (i * kVertexChunk + kVertexChunk - (v + 1)) + 3 +
          (edgesBelow head (i * kVertexChunk + kVertexChunk) - edgesBelow head (v + 1)) < _
        omega
    · have hno' : ∀ e' ∈ (inEdges head kEdges v).take (q + 1), b (tailOf e') ≠ s.level := by
        intro e' he'
        rw [take_add_one, hget, toList_some, mem_append, mem_singleton] at he'
        rcases he' with hbefore | hthis
        · exact hno e' hbefore
        · rw [hthis]
          exact hlevel
      obtain ⟨task, hask, hbottom, hless⟩ := askFrom_spec (q := q + 1) hfirst hsettled hsame hg
        hindex hlast hb hq hno' s.size
      refine ⟨s, task, ?_, ⟨rfl, rfl, rfl⟩, by omega, _, _, _,
        h.keep hi hold (by rw [Progress, if_pos hmode]; exact hbottom)⟩
      have hneq : word ≠ s.level := fun heq => hlevel (hword.mp heq)
      rw [← Nat.add_assoc] at hask
      simp [stepTask, htail, hread, hneq, hask]

theorem step_claim (htask : t i = .claim v) :
    Moves input arena head source b s r i stale (t i) := by
  have hold : (t i).Plain := by rw [htask]; exact ⟨rfl, rfl⟩
  obtain ⟨hmode, _, hv, hmine, hat, hfirst, hlast, hsettled, hsame⟩ :=
    h.bottomUp hi (by rw [htask]; rfl) (.inr (.inr htask))
  rw [htask] at hat ⊢
  cases hat with
  | claim e _ hb he hhead hlevel =>
    have hnow : d v = kUnreachable := by rw [hsame v (Nat.le_refl v) hlast, hb]
    have hleads : Leads head (tailOf e) v := leads_of_edge he hhead
    have hdone : Settled head b (update d v (s.level + 1)) s.level v := by
      refine .inl ?_
      rw [update_self]
      exact h.level.small.2.1
    obtain ⟨hbottom, hless⟩ := BottomUp.next hfirst hsettled hsame hlast
      (fun u hu => update_of_ne hu (s.level + 1) d) hdone s.size
    have hgoes : Progress head b (update d v (s.level + 1)) s.level
        (s.frontier.take s.size) s.size r.mode i (bottomUpFrom i (v + 1)) := by
      rw [Progress, if_pos hmode]
      exact hbottom
    obtain ⟨dist, hstore, hruns⟩ := h.claim hi hold hv hnow (tailOf_eq he).2 hlevel hleads
      (fun _ => hmine) hgoes
    refine ⟨{ s with dist := dist }, .add v (bottomUpFrom i (v + 1)), ?_, ⟨rfl, rfl, rfl⟩, ?_,
      _, _, _, hruns⟩
    · simp only [stepTask, hstore, bind_eq_bind, bind_some, Option.pure_def]
    · show 2 + left head s.size i (bottomUpFrom i (v + 1)) <
        4 * (i * kVertexChunk + kVertexChunk - (v + 1)) + 3 +
          (edgesBelow head (i * kVertexChunk + kVertexChunk) - edgesBelow head (v + 1))
      omega

theorem step_add {after : Task} (htask : t i = .add v after) :
    Moves input arena head source b s r i stale (t i) := by
  have hroom := (h.claims.room hi (by rw [htask]; rfl)).2
  have hvertices := kVertices_eq
  have hfound : (s.found + 1) % 2 ^ 32 = (order ++ [v]).length := by
    rw [h.found, length_append, length_singleton, Nat.mod_eq_of_lt (by omega)]
  refine ⟨{ s with found := (s.found + 1) % 2 ^ 32 }, .put v s.found after, by rw [htask]; rfl,
    ⟨rfl, rfl, rfl⟩, ?_, d, update t i (.put v s.found after), order ++ [v], h.level,
    h.began, h.dist, h.tasks.set hi _, h.sound, ?_, hfound, ?_⟩
  · rw [htask]
    show 1 + left head s.size i after < 2 + left head s.size i after
    omega
  · rw [h.found]
    exact h.claims.add hi htask
  · have hmine := h.progress i hi
    rw [htask] at hmine
    exact rest_update h.progress hmine

theorem step_put {slot : Nat} {after : Task} (htask : t i = .put v slot after) :
    Moves input arena head source b s r i stale (t i) := by
  have hmine := h.progress i hi
  rw [htask] at hmine
  obtain ⟨hplain, hrest⟩ := hmine.plain
  obtain ⟨spare, hstore, hclaims⟩ := h.claims.put hi htask hplain
  refine ⟨{ s with spare := spare }, after, ?_, ⟨rfl, rfl, rfl⟩, ?_, d, update t i after,
    order, h.level, h.began, h.dist, h.tasks.set hi _, h.sound, hclaims, h.found,
    rest_update h.progress (hrest ▸ hmine)⟩
  · rw [htask]
    simp [stepTask, hstore]
  · rw [htask]
    show left head s.size i after < 1 + left head s.size i after
    omega

omit h hi in
theorem stepTask_spec {input : List UInt8} (hinput : input.length = kInputBytes) {arena : Arena}
    (hg : Grouped (headOf input) arena.offsets arena.tails)
    (h : StepRuns (headOf input) source b d t order s r) (hi : i < taskCount s.size r.mode)
    (hdone : t i ≠ .done) (stale : Bool) :
    Moves input arena (headOf input) source b s r i stale (t i) := by
  cases htask : t i with
  | exchange position out => exact htask ▸ step_exchange hinput arena h hi htask stale
  | look v => exact htask ▸ step_look input h hi stale hg htask
  | ask v place => exact htask ▸ step_ask input h hi stale hg htask
  | claim v => exact htask ▸ step_claim input h hi stale htask
  | add v after => exact htask ▸ step_add input h hi stale htask
  | put v slot after => exact htask ▸ step_put input h hi stale htask
  | done => exact absurd htask hdone

end Steps

end LoadForge.Workloads.Graph
