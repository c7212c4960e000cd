import LoadForge.Framework.Tally
import LoadForge.Workloads.BfsSteps

namespace LoadForge.Workloads.Graph

open Framework List Function Option

/-- The most operations of one level: its start, its end and those of its tasks. -/
def kLevelMoves : Nat := 2 + kVertices / kFrontierChunk * kTaskMoves

def kMoves : Nat := (kVertices + 1) * kLevelMoves

inductive Searching (head : Nat → Nat) (source : Nat) (s : Search) : Prop
  | between (b : Nat → Nat) (hlevel : Level head source s.level b s.frontier s.size)
      (hdist : Shows s.dist kVertices b) (hspare : s.spare.length = kVertices)
      (hrunning : s.running = none) : Searching head source s
  | within (r : Running) (b d : Nat → Nat) (t : Nat → Task) (order : List Nat)
      (hruns : StepRuns head source b d t order s r) (hsize : 0 < s.size)
      (hrunning : s.running = some r) : Searching head source s

def tasksLeft (head : Nat → Nat) (size : Nat) (r : Running) : Nat :=
  tally id (fun i => left head size i (r.tasks.getD i .done)) (taskCount size r.mode)

/-- How many operations a search has left at most. -/
def budget (head : Nat → Nat) (s : Search) : Nat :=
  s.running.elim ((kVertices + 1 - s.level) * kLevelMoves) fun r =>
    (kVertices - s.level) * kLevelMoves + 1 + tasksLeft head s.size r

section Graph

variable {head : Nat → Nat} {source : Nat} (hsource : source < kVertices)
variable (hhead : ∀ e < kEdges, head e < kVertices)

include hsource hhead

theorem steps_lt {n v : Nat} (h : Steps (Leads head) source n v) : v < kVertices := by
  induction h with
  | start => exact hsource
  | follow _ hedge ih =>
    obtain ⟨out, hout, hv⟩ := hedge
    exact hv ▸ hhead _ (edge_lt ih hout)

theorem isDist_lt {n v : Nat} (h : IsDist (Leads head) source n v) : n < kVertices := by
  obtain ⟨path, hlength, hnodup, hpath⟩ := h.exists_path
  have hle := length_le_of_nodup hnodup (by
    intro u hu
    obtain ⟨m, _, hdist⟩ := hpath u hu
    exact steps_lt hsource hhead hdist.reached)
  omega

variable {b : Nat → Nat} {level size : Nat} {frontier : List Nat}

omit hsource hhead in
theorem Level.isDist_iff (h : Level head source level b frontier size) {v : Nat}
    (hv : v < kVertices) : b v = level ↔ IsDist (Leads head) source level v := by
  constructor
  · intro hb
    have hle := h.level_le
    have hvertices := kVertices_eq
    have hunreachable : kUnreachable = 4294967295 := rfl
    have hright := (h.right v hv (by omega)).2
    rw [hb] at hright
    exact hright
  · exact h.every v hv level (Nat.le_refl level)

theorem Level.lt (h : Level head source level b frontier size) (hsize : 0 < size) :
    level < kVertices := by
  have hlength : 0 < (frontier.take size).length := by
    rw [length_take, h.length]
    omega
  have hmem : (frontier.take size)[0] ∈ frontier.take size := getElem_mem hlength
  obtain ⟨hv, hb⟩ := (h.mem _).mp hmem
  exact isDist_lt hsource hhead ((h.isDist_iff hv).mp hb)

theorem Level.distances (h : Level head source level b frontier 0) {dist : List Nat}
    (hdist : Shows dist kVertices b) : Distances head source dist := by
  have hnone : ∀ v, ¬IsDist (Leads head) source level v := by
    intro v hv
    have hlt := steps_lt hsource hhead hv.reached
    have hmem := (h.mem v).mpr ⟨hlt, (h.isDist_iff hlt).mpr hv⟩
    rw [take_zero] at hmem
    exact not_mem_nil hmem
  have hbelow : ∀ n, level ≤ n → ∀ v, ¬IsDist (Leads head) source n v := by
    intro n hn
    induction n, hn using Nat.le_induction with
    | base => exact hnone
    | succ n _ ih =>
      intro v hv
      obtain ⟨⟨u, hu, _⟩, _⟩ := isDist_succ_iff.mp hv
      exact ih u hu
  refine ⟨hdist.size, ?_, ?_⟩
  · intro v hv n hn
    have hlt : n < level := by
      by_contra hge
      exact hbelow n (Nat.le_of_not_lt hge) v hn
    rw [hdist.get v hv, h.every v hv n (Nat.le_of_lt hlt) hn]
  · intro v hv hall
    rw [hdist.get v hv]
    by_contra hne
    exact hall _ (h.right v hv fun heq => hne (congrArg some heq)).2

end Graph

section Start

variable {head : Nat → Nat} {source : Nat} {b : Nat → Nat} {s : Search}

theorem tasksOf_spec (head b : Nat → Nat) (level : Nat) (frontier : List Nat) (size : Nat)
    (mode : Mode) : ∃ t, Shows (tasksOf size mode) (taskCount size mode) t ∧
      ∀ i < taskCount size mode, Progress head b b level frontier size mode i (t i) ∧
        left head size i (t i) ≤ kTaskMoves := by
  have hbottom : ∃ t, Shows (tasksOf size .bottomUp) (taskCount size .bottomUp) t ∧
      ∀ i < taskCount size .bottomUp, Progress head b b level frontier size .bottomUp i (t i) ∧
        left head size i (t i) ≤ kTaskMoves := by
    refine ⟨_, shows_map_range _ _, ?_⟩
    intro i _
    have hsettled : ∀ u, i * kVertexChunk ≤ u → u < i * kVertexChunk → Settled head b b level u :=
      fun u hu hlt => absurd hlt (Nat.not_lt_of_le hu)
    obtain ⟨hup, hleft⟩ := bottomUpFrom_spec (Nat.le_refl (i * kVertexChunk))
      hsettled (fun _ _ _ => rfl) (Nat.le_add_right _ _) size
    refine ⟨by rw [Progress, if_pos rfl]; exact hup, ?_⟩
    have hle := edgesBelow_le head (i * kVertexChunk + kVertexChunk)
    rw [kTaskMoves]
    omega
  have htop : ∀ mode, mode ≠ .bottomUp →
      ∀ i, Progress head b b level frontier size mode i
          (topDownFrom size i (i * kFrontierChunk)) ∧
        left head size i (topDownFrom size i (i * kFrontierChunk)) ≤ kTaskMoves := by
    intro mode hmode i
    obtain ⟨hdown, hleft⟩ := topDownFrom_spec head b frontier size
      (Nat.le_refl (i * kFrontierChunk)) (fun e he hlt => absurd hlt (Nat.not_lt_of_le he))
    refine ⟨by rw [Progress, if_neg hmode]; exact hdown, ?_⟩
    have hchunk : kFrontierChunk = 64 := rfl
    have hout : kOutDegree = 8 := rfl
    have hmoves : kTaskMoves = 264192 := rfl
    rw [hout, hchunk] at hleft
    rw [hchunk]
    omega
  cases mode with
  | bottomUp => exact hbottom
  | parallel => exact ⟨_, shows_map_range _ _, fun i _ => htop .parallel (by decide) i⟩
  | serial => exact ⟨_, shows_map_range _ _, fun i _ => htop .serial (by decide) i⟩

theorem taskCount_le {size : Nat} (h : size ≤ kVertices) (mode : Mode) :
    taskCount size mode ≤ kVertices / kFrontierChunk := by
  have hchunk : kFrontierChunk = 64 := rfl
  have hvertices := kVertices_eq
  have htop : (size + kFrontierChunk - 1) / kFrontierChunk ≤ 512 := by
    rw [hchunk]
    omega
  cases mode with
  | bottomUp => exact (by decide : kVertices / kVertexChunk ≤ kVertices / kFrontierChunk)
  | parallel => exact htop
  | serial => exact htop

theorem startStep_spec (hlevel : Level head source s.level b s.frontier s.size)
    (hdist : Shows s.dist kVertices b) (hspare : s.spare.length = kVertices) :
    ∃ r t, (startStep s).running = some r ∧ StepRuns head source b b t [] (startStep s) r ∧
      tasksLeft head s.size r ≤ kVertices / kFrontierChunk * kTaskMoves := by
  obtain ⟨t, ht, htasks⟩ := tasksOf_spec head b s.level (s.frontier.take s.size) s.size
    (modeOf s.size s.visited)
  have hsmall := hlevel.small
  refine ⟨⟨modeOf s.size s.visited, tasksOf s.size (modeOf s.size s.visited), s.dist⟩, t, rfl,
    ⟨hlevel, hdist, hdist, ht, fun v _ => Or.inl rfl, ?_, rfl, ?_⟩, ?_⟩
  · apply claims_start
    · intro v hv heq
      have hle := (hlevel.right v hv (by rw [heq]; exact hsmall.2.1)).1
      rw [heq] at hle
      exact Nat.not_succ_le_self s.level hle
    · intro i hi
      exact (htasks i hi).1.plain.1
    · exact hspare
  · intro i hi
    rw [(htasks i hi).1.plain.2]
    exact (htasks i hi).1
  · have hle : tasksLeft head s.size
        ⟨modeOf s.size s.visited, tasksOf s.size (modeOf s.size s.visited), s.dist⟩ ≤
        taskCount s.size (modeOf s.size s.visited) * kTaskMoves := by
      apply tally_le
      intro i hi
      rw [getD_eq_getElem?_getD, ht.get i hi]
      exact (htasks i hi).2
    exact Nat.le_trans hle (Nat.mul_le_mul_right _ (taskCount_le hlevel.size_le _))

end Start

section End

variable {head : Nat → Nat} {source : Nat} {b d : Nat → Nat} {t : Nat → Task} {order : List Nat}
variable {s : Search} {r : Running}

theorem StepRuns.complete (h : StepRuns head source b d t order s r)
    (hdone : ∀ i < taskCount s.size r.mode, t i = .done) {u v : Nat} (hu : u < kVertices)
    (hb : b u = s.level) (hedge : Leads head u v) (hv : v < kVertices) : d v ≠ kUnreachable := by
  obtain ⟨out, hout, hhead⟩ := hedge
  have hprogress : ∀ i < taskCount s.size r.mode,
      Progress head b d s.level (s.frontier.take s.size) s.size r.mode i .done := by
    intro i hi
    have hp := h.progress i hi
    rw [hdone i hi] at hp
    exact hp
  by_cases hmode : r.mode = .bottomUp
  · have hi : v / kVertexChunk < taskCount s.size r.mode := by
      rw [hmode]
      exact Nat.div_lt_div_of_lt_of_dvd (by decide) hv
    have hp := hprogress _ hi
    rw [Progress, if_pos hmode] at hp
    obtain ⟨w, _, hsettled, _, hat⟩ := hp
    cases hat with
    | done hw =>
      have hchunk : kVertexChunk = 512 := rfl
      have hsettle := hsettled v (by rw [hchunk]; omega) (by rw [hw, hchunk]; omega)
      have htail : tailOf (u * kOutDegree + out) = u := by
        rw [(tailOf_eq (edge_lt hu hout)).1, Nat.mul_comm, Nat.mul_add_div (by decide),
          Nat.div_eq_of_lt hout, Nat.add_zero]
      rcases hsettle with hd | hno
      · exact hd
      · exact absurd (by rw [htail]; exact hb) (hno _ (edge_lt hu hout) hhead)
  · have hmem := (h.level.mem u).mpr ⟨hu, hb⟩
    obtain ⟨p, hp, hget⟩ := getElem_of_mem hmem
    have hsize : p < s.size := Nat.lt_of_lt_of_le hp (length_take_le _ _)
    have hchunk : kFrontierChunk = 64 := rfl
    have hcount : taskCount s.size r.mode = (s.size + kFrontierChunk - 1) / kFrontierChunk := by
      generalize r.mode = mode at hmode
      cases mode with
      | bottomUp => exact absurd rfl hmode
      | parallel => rfl
      | serial => rfl
    have hi : p / kFrontierChunk < taskCount s.size r.mode := by
      rw [hcount, hchunk]
      omega
    have htop := hprogress _ hi
    rw [Progress, if_neg hmode] at htop
    have hpassed := htop.passed (e := p * kOutDegree + out) (by
        have hle : p / kFrontierChunk * kFrontierChunk ≤ p := Nat.div_mul_le_self ..
        calc p / kFrontierChunk * kFrontierChunk * kOutDegree ≤ p * kOutDegree :=
              Nat.mul_le_mul_right _ hle
          _ ≤ p * kOutDegree + out := Nat.le_add_right _ _)
      (by
        have hlt : p < min (p / kFrontierChunk * kFrontierChunk + kFrontierChunk) s.size := by
          rw [hchunk]
          omega
        calc p * kOutDegree + out < p * kOutDegree + kOutDegree := Nat.add_lt_add_left hout _
          _ = (p + 1) * kOutDegree := (Nat.succ_mul p kOutDegree).symm
          _ ≤ _ := Nat.mul_le_mul_right _ hlt)
    have hposition : (p * kOutDegree + out) / kOutDegree = p := by
      rw [Nat.mul_comm, Nat.mul_add_div (by decide), Nat.div_eq_of_lt hout, Nat.add_zero]
    have hrest : (p * kOutDegree + out) % kOutDegree = out := by
      rw [Nat.mul_comm, Nat.mul_add_mod, Nat.mod_eq_of_lt hout]
    have hnow := hpassed u (by rw [hposition, getElem?_eq_getElem hp, hget])
    rw [hrest, hhead] at hnow
    exact hnow

theorem endStep_spec (hsource : source < kVertices) (hhead : ∀ e < kEdges, head e < kVertices)
    (h : StepRuns head source b d t order s r) (hsize : 0 < s.size)
    (hdone : ∀ i < taskCount s.size r.mode, t i = .done) :
    Level head source (endStep s).level d (endStep s).frontier (endStep s).size ∧
      (endStep s).level = s.level + 1 := by
  obtain ⟨hword, hfar, hnear⟩ := h.level.small
  obtain ⟨hlisted, hmem⟩ := h.claims.listed hdone
  have hlt := h.level.lt hsource hhead hsize
  have hlevel : (endStep s).level = s.level + 1 := hword
  have htake : (endStep s).frontier.take (endStep s).size = order := by
    show s.spare.take s.found = order
    rw [h.found]
    exact hlisted
  have hunseen : ∀ v < kVertices, b v = kUnreachable → ∀ m ≤ s.level,
      ¬IsDist (Leads head) source m v := by
    intro v hv hb m hm hdist
    have hunreachable : kUnreachable = 4294967295 := rfl
    have heq := h.level.every v hv m hm hdist
    omega
  refine ⟨⟨h.claims.size, ?_, by rw [hlevel]; exact hlt, ?_, ?_, ?_, ?_⟩, hlevel⟩
  · show s.found ≤ kVertices
    rw [h.found]
    exact length_le_of_nodup h.claims.nodup h.claims.lt_of_mem
  · rw [htake]
    exact h.claims.nodup
  · intro v
    rw [htake, hlevel]
    constructor
    · intro hv
      have hin := h.claims.lt_of_mem v hv
      exact ⟨hin, (hmem v hin).mp hv⟩
    · intro hv
      exact (hmem v hv.1).mpr hv.2
  · intro v hv hd
    rw [hlevel]
    rcases h.sound v hv with hsame | ⟨hb, hnext, u, hu, hbu, hedge⟩
    · rw [hsame] at hd ⊢
      obtain ⟨hle, hdist⟩ := h.level.right v hv hd
      exact ⟨Nat.le_succ_of_le hle, hdist⟩
    · rw [hnext]
      refine ⟨Nat.le_refl _, isDist_succ_iff.mpr ⟨⟨u, ?_, hedge⟩, hunseen v hv hb⟩⟩
      exact (h.level.isDist_iff hu).mp hbu
  · intro v hv n hn hdist
    rw [hlevel] at hn
    rcases Nat.lt_or_eq_of_le hn with hless | heq
    · have hb := h.level.every v hv n (Nat.le_of_lt_succ hless) hdist
      rcases h.sound v hv with hsame | ⟨hunreached, _⟩
      · rw [hsame, hb]
      · exact absurd hdist (hunseen v hv hunreached n (Nat.le_of_lt_succ hless))
    · rw [heq] at hdist ⊢
      obtain ⟨⟨u, hu, hedge⟩, hnone⟩ := isDist_succ_iff.mp hdist
      have hul := steps_lt hsource hhead hu.reached
      have hreached := h.complete hdone hul ((h.level.isDist_iff hul).mpr hu) hedge hv
      rcases h.sound v hv with hsame | ⟨_, hnext, _⟩
      · rw [hsame] at hreached
        obtain ⟨hle, hb⟩ := h.level.right v hv hreached
        exact absurd hb (hnone _ hle)
      · exact hnext

end End

section Events

variable {input : List UInt8} (hinput : input.length = kInputBytes) {arena : Arena}
variable (hg : Grouped (headOf input) arena.offsets arena.tails)
variable {source : Nat} (hsource : source < kVertices) {s : Search}

theorem canStep_iff {r : Running} {n : Nat} {t : Nat → Task} (ht : Shows r.tasks n t) (i : Nat) :
    canStep r i = true ↔ i < n ∧ t i ≠ .done ∧ (r.mode = .serial → ∀ j < i, t j = .done) := by
  rw [canStep]
  by_cases hi : i < n
  · have hearlier : (r.tasks.take i).all (fun earlier => decide (earlier = .done)) = true ↔
        ∀ j < i, t j = .done := by
      rw [List.all_eq_true]
      constructor
      · intro hall j hj
        have hmem : t j ∈ r.tasks.take i := by
          apply mem_of_getElem? (i := j)
          rw [getElem?_take_of_lt hj, ht.get j (by omega)]
        exact of_decide_eq_true (hall _ hmem)
      · intro hall task hmem
        obtain ⟨j, hj, hget⟩ := getElem_of_mem hmem
        rw [length_take] at hj
        rw [getElem_take] at hget
        have hj' : r.tasks[j]? = some task := by rw [getElem?_eq_getElem (by omega), hget]
        rw [ht.get j (by omega)] at hj'
        rw [← some.inj hj']
        exact decide_eq_true (hall j (by omega))
    rw [ht.get i hi]
    simp only [Bool.and_eq_true, decide_eq_true_iff, Bool.or_eq_true, hearlier]
    constructor
    · intro h
      exact ⟨hi, h.1, fun hmode => h.2.resolve_left fun hnot => hnot hmode⟩
    · intro h
      refine ⟨h.2.1, ?_⟩
      by_cases hmode : r.mode = .serial
      · exact Or.inr (h.2.2 hmode)
      · exact Or.inl hmode
  · rw [getElem?_eq_none (by rw [ht.size]; omega)]
    simp only [Bool.false_eq_true, false_iff]
    intro h
    exact hi h.1

theorem tasksLeft_lt {head : Nat → Nat} {size : Nat} {r : Running} {t : Nat → Task}
    (ht : Shows r.tasks (taskCount size r.mode) t) {i : Nat} (hi : i < taskCount size r.mode)
    {task : Task} (hless : left head size i task < left head size i (t i)) :
    tasksLeft head size { r with tasks := r.tasks.set i task } < tasksLeft head size r := by
  have hget : ∀ {cells : List Task} {value : Nat → Task},
      Shows cells (taskCount size r.mode) value →
      tally id (fun j => left head size j (cells.getD j .done)) (taskCount size r.mode) =
        tally id (fun j => left head size j (value j)) (taskCount size r.mode) := by
    intro cells value hshows
    apply tally_congr
    intro j hj
    rw [getD_eq_getElem?_getD, hshows.get j hj]
    rfl
  have hupdate : (fun j => left head size j (update t i task j)) =
      update (fun j => left head size j (t j)) i (left head size i task) := by
    funext j
    by_cases hji : j = i
    · simp [hji]
    · rw [update_of_ne hji, update_of_ne hji]
  have hsum := tally_update id (fun j => left head size j (t j)) (left head size i task) hi
  rw [tasksLeft, tasksLeft, hget ht, hget (ht.set hi task), hupdate]
  simp only [id] at hsum
  omega

include hinput hg hsource

theorem step_spec (h : Searching (headOf input) source s) (e : Event) :
    ∃ s', step input arena s e = some s' ∧ Searching (headOf input) source s' ∧
      budget (headOf input) s' + (if moves s e then 1 else 0) ≤ budget (headOf input) s := by
  have hhead : ∀ e < kEdges, headOf input e < kVertices :=
    fun e he => (headAt_eq hinput (Nat.le_of_lt he)).2
  by_cases hmoves : moves s e = true
  swap
  · refine ⟨s, ?_, h, ?_⟩
    · unfold step
      rw [if_neg hmoves]
    · rw [if_neg hmoves]
      exact Nat.le_refl _
  rw [if_pos hmoves]
  cases h with
  | between b hlevel hdist hspare hrunning =>
    cases e with
    | task index stale =>
      rw [moves, hrunning] at hmoves
      exact absurd hmoves Bool.false_ne_true
    | main =>
      have hsize : 0 < s.size := by
        simp only [moves, hrunning, decide_eq_true_iff] at hmoves
        exact hmoves
      have hlt := hlevel.lt hsource hhead hsize
      obtain ⟨r, t, hr, hruns, hleft⟩ := startStep_spec hlevel hdist hspare
      refine ⟨startStep s, ?_, .within r b b t [] hruns hsize hr, ?_⟩
      · simp [step, hmoves, hrunning]
      · have hlater : kVertices + 1 - s.level = kVertices - s.level + 1 := by omega
        have hlevels : kLevelMoves = 2 + kVertices / kFrontierChunk * kTaskMoves := rfl
        simp only [budget, hr, hrunning, elim_some, elim_none]
        rw [hlater, Nat.succ_mul]
        show (kVertices - s.level) * kLevelMoves + 1 + tasksLeft (headOf input) s.size r + 1 ≤ _
        omega
  | within r b d t order hruns hsize hrunning =>
    cases e with
    | task index stale =>
      have hcan : canStep r index = true := by
        simp only [moves, hrunning, any_some] at hmoves
        exact hmoves
      obtain ⟨hi, hbusy, _⟩ := (canStep_iff hruns.tasks index).mp hcan
      obtain ⟨s', task, hstep, hadvanced⟩ := stepTask_spec hinput hg hruns hi hbusy stale
      obtain ⟨d', t', order', hruns'⟩ := hadvanced.runs
      obtain ⟨hfrontier, hsame, hlevel⟩ := hadvanced.frame
      refine ⟨{ s' with running := some { r with tasks := r.tasks.set index task } }, ?_,
        .within _ b d' t' order' ⟨hruns'.level, hruns'.began, hruns'.dist, hruns'.tasks,
          hruns'.sound, hruns'.claims, hruns'.found, hruns'.progress⟩ (hsame ▸ hsize) rfl, ?_⟩
      · simp [step, hmoves, hrunning, hruns.tasks.get index hi, hstep]
      · have hless := tasksLeft_lt hruns.tasks hi hadvanced.left_lt
        simp only [budget, hrunning, elim_some]
        rw [hlevel, hsame]
        omega
    | main =>
      have hall : ∀ i < taskCount s.size r.mode, t i = .done := by
        simp only [moves, hrunning, List.all_eq_true, decide_eq_true_iff] at hmoves
        intro i hi
        exact hmoves _ (mem_of_getElem? (hruns.tasks.get i hi))
      obtain ⟨hlevel, hnext⟩ := endStep_spec hsource hhead hruns hsize hall
      refine ⟨endStep s, ?_, .between d hlevel hruns.dist hruns.level.length rfl, ?_⟩
      · simp [step, hmoves, hrunning]
      · have hlater : kVertices + 1 - (s.level + 1) = kVertices - s.level := by omega
        have hnone : (endStep s).running = none := rfl
        simp only [budget, hnone, hrunning, elim_some, elim_none]
        rw [hnext, hlater]
        omega

theorem runBfs_spec (h : Searching (headOf input) source s) (events : List Event) :
    ∃ state, runBfs input arena events s = some state ∧
      Searching (headOf input) source state.1 ∧ state.2 ≤ budget (headOf input) s := by
  refine result_mono (foldlM_spec (fun _ (state : Search × Nat) => Searching (headOf input) source
    state.1 ∧ state.2 + budget (headOf input) state.1 ≤ budget (headOf input) s) ?_ ?_) ?_
  · intro _ e _ state _ hstate
    obtain ⟨s', hstep, hsearching, hbudget⟩ := step_spec hinput hg hsource hstate.1 e
    refine ⟨(s', state.2 + if moves state.1 e then 1 else 0), ?_, hsearching, ?_⟩
    · simp [hstep]
    · show state.2 + (if moves state.1 e then 1 else 0) + budget (headOf input) s' ≤ _
      omega
  · exact ⟨h, Nat.le_of_eq (Nat.zero_add _)⟩
  · exact fun state hstate => ⟨hstate.1, Nat.le_trans (Nat.le_add_right _ _) hstate.2⟩

end Events

theorem Searching.progress {head : Nat → Nat} {source : Nat} {s : Search}
    (h : Searching head source s) (hnot : finished s = false) : ∃ e, moves s e = true := by
  cases h with
  | between b hlevel hdist hspare hrunning =>
    refine ⟨.main, ?_⟩
    simp only [finished, hrunning, isNone_none, Bool.true_and, beq_eq_false_iff_ne] at hnot
    simp only [moves, hrunning, decide_eq_true_iff]
    exact Nat.pos_of_ne_zero hnot
  | within r b d t order hruns hsize hrunning =>
    by_cases hbusy : ∃ i, i < taskCount s.size r.mode ∧ t i ≠ .done
    · classical
      obtain ⟨hi, hfirst⟩ := Nat.find_spec hbusy
      refine ⟨.task (Nat.find hbusy) false, ?_⟩
      simp only [moves, hrunning, any_some]
      rw [canStep_iff hruns.tasks]
      refine ⟨hi, hfirst, ?_⟩
      intro _ j hj
      by_contra hne
      exact Nat.find_min hbusy hj ⟨Nat.lt_trans hj hi, hne⟩
    · refine ⟨.main, ?_⟩
      simp only [moves, hrunning, List.all_eq_true, decide_eq_true_iff]
      intro task hmem
      obtain ⟨i, hi, hget⟩ := getElem_of_mem hmem
      have hi' : i < taskCount s.size r.mode := hruns.tasks.size ▸ hi
      have hget' := hruns.tasks.get i hi'
      rw [getElem?_eq_getElem hi, hget] at hget'
      rw [some.inj hget']
      by_contra hne
      exact hbusy ⟨i, hi', hne⟩

/-- The lists have room for all vertices, and the first lists those of the level once. -/
structure Lists (head : Nat → Nat) (source : Nat) (s : Search) : Prop where
  frontier : s.frontier.length = kVertices
  spare : s.spare.length = kVertices
  size_le : s.size ≤ kVertices
  found_le : s.running.isSome → s.found ≤ kVertices
  nodup : (s.frontier.take s.size).Nodup
  mem : ∀ v, v ∈ s.frontier.take s.size ↔ IsDist (Leads head) source s.level v

section

variable {head : Nat → Nat} {source : Nat} {s : Search} (hsource : source < kVertices)
  (hhead : ∀ e < kEdges, head e < kVertices) (h : Searching head source s)
include hsource hhead h

theorem Searching.lists : Lists head source s := by
  have hmem : ∀ {b}, Level head source s.level b s.frontier s.size →
      ∀ v, v ∈ s.frontier.take s.size ↔ IsDist (Leads head) source s.level v := by
    intro b hlevel v
    rw [hlevel.mem]
    constructor
    · intro hv
      exact (hlevel.isDist_iff hv.1).mp hv.2
    · intro hv
      have hlt := steps_lt hsource hhead hv.reached
      exact ⟨hlt, (hlevel.isDist_iff hlt).mpr hv⟩
  cases h with
  | between b hlevel hdist hspare hrunning =>
    refine ⟨hlevel.length, hspare, hlevel.size_le, ?_, hlevel.nodup, hmem hlevel⟩
    intro hsome
    rw [hrunning] at hsome
    exact absurd hsome Bool.false_ne_true
  | within r b d t order hruns hsize hrunning =>
    refine ⟨hruns.level.length, hruns.claims.size, hruns.level.size_le, ?_, hruns.level.nodup,
      hmem hruns.level⟩
    intro _
    rw [hruns.found]
    exact length_le_of_nodup hruns.claims.nodup hruns.claims.lt_of_mem

theorem Searching.distances (hend : finished s = true) : Distances head source s.dist := by
  rw [finished, Bool.and_eq_true, beq_iff_eq] at hend
  cases h with
  | between b hlevel hdist hspare hrunning =>
    rw [hend.2] at hlevel
    exact hlevel.distances hsource hhead hdist
  | within r b d t order hruns hsize hrunning =>
    rw [hrunning] at hend
    exact absurd hend.1 Bool.false_ne_true

end

/-- The search before its first step, whatever was in the scratch. -/
theorem startBfs_spec {input : List UInt8} (hinput : input.length = kInputBytes) {arena : Arena}
    (ha : arena.Sized) : ∃ source s, sourceAt input = some source ∧ source < kVertices ∧
      startBfs input arena = some s ∧ Searching (headOf input) source s ∧
      budget (headOf input) s = kMoves := by
  obtain ⟨hword, hsource⟩ := headAt_eq hinput (Nat.le_refl kEdges)
  have hlists := ha.lists
  generalize headOf input kEdges = source at hword hsource
  have hat : sourceAt input = some source := hword
  obtain ⟨dist, hstore, hdist⟩ := (shows_replicate kVertices kUnreachable).store hsource 0
  have hfront : (arena.lists.take kVertices).length = kVertices := by
    rw [length_take]
    omega
  have hfirst : storeCell (arena.lists.take kVertices) 0 source =
      some ((arena.lists.take kVertices).set 0 source) := if_pos (by omega)
  have htake : ((arena.lists.take kVertices).set 0 source).take 1 = [source] := by
    generalize arena.lists.take kVertices = cells at hfront
    cases cells with
    | nil => exact absurd hfront (by decide)
    | cons _ _ => rfl
  refine ⟨source, ⟨dist, (arena.lists.take kVertices).set 0 source, arena.lists.drop kVertices, 1, 1,
    0, 0, none⟩, hat, hsource, ?_, .between (update (fun _ => kUnreachable) source 0)
      ⟨?_, (by decide : 1 ≤ kVertices), Nat.zero_le _, ?_, ?_, ?_, ?_⟩ hdist ?_ rfl, ?_⟩
  · simp [startBfs, hat, ha.dist, hstore, hfirst]
  · rw [length_set, hfront]
  · show (((arena.lists.take kVertices).set 0 source).take 1).Nodup
    rw [htake]
    exact nodup_singleton source
  · intro v
    rw [htake, mem_singleton]
    by_cases hv : v = source
    · rw [hv, update_self]
      exact iff_of_true rfl ⟨hsource, rfl⟩
    · rw [update_of_ne hv]
      exact iff_of_false hv fun hand => absurd hand.2 (by decide : kUnreachable ≠ 0)
  · intro v _ hb
    by_cases hv : v = source
    · rw [hv, update_self]
      exact ⟨Nat.le_refl 0, isDist_zero_iff.mpr rfl⟩
    · rw [update_of_ne hv] at hb
      exact absurd rfl hb
  · intro v _ n hn hv
    rw [Nat.le_zero.mp hn] at hv ⊢
    rw [isDist_zero_iff.mp hv, update_self]
  · show (arena.lists.drop kVertices).length = kVertices
    rw [length_drop]
    omega
  · show (kVertices + 1 - 0) * kLevelMoves = kMoves
    rw [Nat.sub_zero, kMoves]

end LoadForge.Workloads.Graph
