import LoadForge.Worker.PoolRuns

namespace LoadForge.Worker.Executor

open Framework List Function Serving

variable {T C E : Type} [Inhabited T] [Inhabited C]

namespace ThreadPool

/-- The factory is about to start the thread of a slot. -/
structure Starting (threads : UInt64) (p : ThreadPool T C E) (slot : Nat) : Prop where
  stopping : p.stopping = false
  below : slot < threads.toNat
  waiting : ∀ one < slot, p.serving one = .waits p.generation false
  absent : ∀ one, slot ≤ one → p.serving one = .absent ∧ p.reported one = false
  log : Ledger.Accepts .between p.log .between

/-- The factory waits for the report of the thread it started. -/
structure Reporting (threads : UInt64) (p : ThreadPool T C E) (slot : Nat) : Prop where
  stopping : p.stopping = false
  below : slot < threads.toNat
  waiting : ∀ one < slot, p.serving one = .waits p.generation false
  absent : ∀ one, slot < one → p.serving one = .absent ∧ p.reported one = false
  log : Ledger.Accepts .between p.log .between
  itself : p.serving slot = .prepares ∧ p.reported slot = false ∨
    p.serving slot = .waits p.generation false ∧ p.failure slot = none ∨
    p.serving slot = .exited ∧ ∃ failure, p.failure slot = some failure

structure Idle (threads : UInt64) (p : ThreadPool T C E) : Prop where
  stopping : p.stopping = false
  some : 0 < threads.toNat
  waiting : ∀ one < threads.toNat, p.serving one = .waits p.generation false
  absent : ∀ one, threads.toNat ≤ one → p.serving one = .absent
  log : Ledger.Accepts .between p.log .between

/-- The pool is being destroyed, or was never made. -/
structure Closed (p : ThreadPool T C E) : Prop where
  resting : ∀ one, p.serving one = .absent ∨ p.serving one = .exited ∨
    p.stopping = true ∧ ∃ seen notified, p.serving one = .waits seen notified
  log : Ledger.Accepts .between p.log .between

def Kept (threads : UInt64) (p : ThreadPool T C E) : Prop :=
  match p.owner with
  | .starts slot => p.Starting threads slot
  | .waitsReported slot _ => p.Reporting threads slot
  | .owns => p.Idle threads
  | .waitsFinished notified => 0 < threads.toNat ∧
    ∃ call begun running, p.InRun threads call begun running notified
  | .joins .. | .ended _ => p.Closed

variable {threads : UInt64} {p : ThreadPool T C E} {slot : Nat}

theorem kept_starts (ho : p.owner = .starts slot) : p.Kept threads ↔ p.Starting threads slot := by
  rw [Kept, ho]

variable {notified : Bool}

theorem kept_waitsReported (ho : p.owner = .waitsReported slot notified) :
    p.Kept threads ↔ p.Reporting threads slot := by
  rw [Kept, ho]

theorem kept_owns (ho : p.owner = .owns) : p.Kept threads ↔ p.Idle threads := by
  rw [Kept, ho]

theorem kept_waitsFinished (ho : p.owner = .waitsFinished notified) :
    p.Kept threads ↔ 0 < threads.toNat ∧
      ∃ call begun running, p.InRun threads call begun running notified := by
  rw [Kept, ho]

theorem kept_joins {failure : Option (PoolError E)} (ho : p.owner = .joins slot failure) :
    p.Kept threads ↔ p.Closed := by
  rw [Kept, ho]

theorem kept_ended {failure : Option (PoolError E)} (ho : p.owner = .ended failure) :
    p.Kept threads ↔ p.Closed := by
  rw [Kept, ho]

/-- Nothing the thread of the slot does changes the pool. -/
def Quiet (p : ThreadPool T C E) (slot : Nat) : Prop :=
  p.serving slot = .absent ∨ p.serving slot = .exited ∨
    p.serving slot = .waits p.generation false

theorem serve_same (hs : p.stopping = false) (hq : p.Quiet slot ∨ p.serving slot = .prepares) :
    p.step threads (.serve slot) = p := by
  rw [step]
  rcases hq with (hw | hw | hw) | hw
  · simp only [serve, hw]
  · simp only [serve, hw]
  · simp only [serve, hw]
    rw [look_same hs p.generation rfl, setServing_self hw]
  · simp only [serve, hw]

theorem report_same (failure : Option E) (hw : p.serving slot ≠ .prepares) :
    p.step threads (.report slot failure) = p := by
  rw [step]
  split
  · rename_i hone
    exact absurd hone hw
  · rfl

theorem Quiet.ne_prepares (hq : p.Quiet slot) : p.serving slot ≠ .prepares := by
  rcases hq with hw | hw | hw
  all_goals rw [hw]; exact nofun

theorem Starting.quiet (h : p.Starting threads slot) (one : Nat) : p.Quiet one := by
  by_cases hone : one < slot
  · exact .inr (.inr (h.waiting one hone))
  · exact .inl (h.absent one (Nat.not_lt.mp hone)).1

theorem Idle.quiet (h : p.Idle threads) (one : Nat) : p.Quiet one := by
  by_cases hone : one < threads.toNat
  · exact .inr (.inr (h.waiting one hone))
  · exact .inl (h.absent one (Nat.not_lt.mp hone))

theorem Reporting.quiet (h : p.Reporting threads slot) (one : Nat) (hone : one ≠ slot) :
    p.Quiet one := by
  rcases Nat.lt_or_gt_of_ne hone with hone | hone
  · exact .inr (.inr (h.waiting one hone))
  · exact .inl (h.absent one hone).1

theorem destroy_kept (failure : Option (PoolError E)) (hl : Ledger.Accepts .between p.log .between)
    (hq : ∀ one, p.Quiet one) : (p.destroy failure).Kept threads := by
  refine (kept_joins rfl).mpr ⟨?_, hl⟩
  intro one
  simp only [destroy]
  rcases hq one with hone | hone | hone
  · rw [hone]
    exact .inl rfl
  · rw [hone]
    exact .inr (.inl rfl)
  · rw [hone]
    exact .inr (.inr ⟨trivial, _, true, rfl⟩)

theorem starting_step (ho : p.owner = .starts slot) (h : p.Starting threads slot)
    (e : PoolEvent T C E) : (p.step threads e).Kept threads := by
  have hsame : p.Kept threads := (kept_starts ho).mpr h
  cases e with
  | report one failure =>
    rw [report_same failure (h.quiet one).ne_prepares]
    exact hsame
  | serve one =>
    rw [serve_same h.stopping (.inl (h.quiet one))]
    exact hsame
  | start refusal =>
    simp only [step, ho]
    cases refusal with
    | some cause => exact destroy_kept _ h.log h.quiet
    | none =>
      refine (kept_waitsReported rfl).mpr ⟨h.stopping, h.below, ?_, ?_, h.log, .inl ⟨?_, ?_⟩⟩
      · intro one hone
        exact (update_of_ne (by omega) ..).trans (h.waiting one hone)
      · intro one hone
        obtain ⟨habsent, hreported⟩ := h.absent one (by omega)
        exact ⟨(update_of_ne (by omega) ..).trans habsent, hreported⟩
      · exact update_self ..
      · exact (h.absent slot (Nat.le_refl _)).2
  | _ => simpa only [step, wake, join, ho] using hsame

theorem reported_kept (h : p.Reporting threads slot) (failure : Option (PoolError E))
    (w : Serving T C)
    (hw : w = .waits p.generation false ∧ failure = none ∨
      w = .exited ∧ ∃ cause, failure = some cause) :
    Kept threads { p with
      reported := update p.reported slot true
      failure := update p.failure slot failure
      owner := .waitsReported slot true
      serving := update p.serving slot w } := by
  refine (kept_waitsReported rfl).mpr ⟨h.stopping, h.below, ?_, ?_, h.log, .inr ?_⟩
  · intro other hother
    exact (update_of_ne (by omega) ..).trans (h.waiting other hother)
  · intro other hother
    obtain ⟨habsent, hreported⟩ := h.absent other hother
    exact ⟨(update_of_ne (by omega) ..).trans habsent, (update_of_ne (by omega) ..).trans hreported⟩
  · simpa only [update_self] using hw

theorem reporting_step (ho : p.owner = .waitsReported slot notified) (h : p.Reporting threads slot)
    (e : PoolEvent T C E) : (p.step threads e).Kept threads := by
  have hsame : p.Kept threads := (kept_waitsReported ho).mpr h
  cases e with
  | serve one =>
    rw [serve_same h.stopping]
    · exact hsame
    · by_cases hone : one = slot
      · rw [hone]
        rcases h.itself with ⟨hitself, _⟩ | ⟨hitself, _⟩ | ⟨hitself, _⟩
        · exact .inr hitself
        · exact .inl (.inr (.inr hitself))
        · exact .inl (.inr (.inl hitself))
      · exact .inl (h.quiet one hone)
  | report one failure =>
    by_cases hone : p.serving one = .prepares
    swap
    · rw [report_same failure hone]
      exact hsame
    have hslot : one = slot := by
      by_contra hne
      exact (h.quiet one hne).ne_prepares hone
    subst hslot
    have howner : p.owner.notifyReported = .waitsReported one true := by
      rw [ho]
      rfl
    simp only [step, hone, report, howner]
    cases failure with
    | some cause => exact reported_kept h _ _ (.inr ⟨rfl, _, rfl⟩)
    | none =>
      simp only [Option.isSome_none, Bool.false_eq_true, if_false]
      rw [look_same]
      · exact reported_kept h _ _ (.inl ⟨rfl, rfl⟩)
      · exact h.stopping
      · rfl
  | wake =>
    simp only [step, wake, ho]
    by_cases hreported : p.reported slot = true
    swap
    · rw [if_neg hreported]
      exact (kept_waitsReported rfl).mpr ⟨h.stopping, h.below, h.waiting, h.absent, h.log, h.itself⟩
    rw [if_pos hreported]
    rcases h.itself with ⟨_, hnot⟩ | ⟨hitself, hfailure⟩ | ⟨hitself, failure, hfailure⟩
    · rw [hnot] at hreported
      cases hreported
    · have hwaiting : ∀ one < slot + 1, p.serving one = .waits p.generation false := by
        intro one hone
        by_cases hslot : one = slot
        · rw [hslot]
          exact hitself
        · exact h.waiting one (by omega)
      have hbelow := h.below
      simp only [hfailure]
      split_ifs with hmore
      · exact (kept_starts rfl).mpr ⟨h.stopping, hmore, hwaiting,
          fun one hone => h.absent one hone, h.log⟩
      · exact (kept_owns rfl).mpr ⟨h.stopping, by omega, fun one hone => hwaiting one (by omega),
          fun one hone => (h.absent one (by omega)).1, h.log⟩
    · simp only [hfailure]
      apply destroy_kept _ h.log
      intro one
      by_cases hone : one = slot
      · exact hone ▸ .inr (.inl hitself)
      · exact h.quiet one hone
  | _ => simpa only [step, join, ho] using hsame

theorem closed_step (ho : (∃ one failure, p.owner = .joins one failure) ∨ ∃ failure, p.owner = .ended failure)
    (h : p.Closed) (e : PoolEvent T C E) : (p.step threads e).Kept threads := by
  have hkept : ∀ q : ThreadPool T C E, q.owner = p.owner → q.Closed → q.Kept threads := by
    intro q hq hclosed
    rcases ho with ⟨one, failure, hone⟩ | ⟨failure, hone⟩
    · exact (kept_joins (hq.trans hone)).mpr hclosed
    · exact (kept_ended (hq.trans hone)).mpr hclosed
  have hsame := hkept p rfl h
  cases e with
  | report one failure =>
    rw [report_same]
    · exact hsame
    · rcases h.resting one with hone | hone | ⟨_, seen, notified, hone⟩
      all_goals rw [hone]; exact nofun
  | serve one =>
    rcases h.resting one with hone | hone | ⟨hstopping, seen, notified, hone⟩
    · simpa only [step, serve, hone] using hsame
    · simpa only [step, serve, hone] using hsame
    · simp only [step, serve, hone, look, hstopping, Bool.not_true, Bool.and_false,
        Bool.false_eq_true, if_false, if_true]
      refine hkept _ rfl ⟨?_, h.log⟩
      intro other
      by_cases hother : other = one
      · rw [hother]
        exact .inr (.inl (update_self ..))
      · simp only [setServing, update_of_ne hother]
        exact h.resting other
  | join =>
    rcases ho with ⟨one, failure, hone⟩ | ⟨failure, hone⟩
    · simp only [step, join, hone]
      split_ifs with hstarted
      · cases hw : p.serving one with
        | exited => exact (kept_joins rfl).mpr ⟨h.resting, h.log⟩
        | _ => exact hsame
      · exact (kept_ended rfl).mpr ⟨h.resting, h.log⟩
    · simpa only [step, join, hone] using hsame
  | _ =>
    rcases ho with ⟨one, failure, hone⟩ | ⟨failure, hone⟩
    all_goals simpa only [step, wake, hone] using hsame

theorem call_kept (ho : p.owner = .owns) (h : p.Idle threads) (call : Call T C)
    (hc : call.count.toNat + threads.toNat < 2 ^ 64) :
    (p.call threads call).Kept threads ∧ ((p.call threads call).owner = .owns ∨
      ∃ begun running notified, (p.call threads call).InRun threads call begun running notified ∧
        (p.call threads call).remaining threads =
          3 * call.count.toNat + 3 * threads.toNat + 1) := by
  have hcalled : Ledger.Accepts .between (p.log ++ [.calls call]) (.during call [] []) :=
    accepts_snoc h.log (.calls call)
  rw [ThreadPool.call]
  split_ifs with hzero
  · have hreturns : (Ledger.during call [] []).Step .returns .between := by
      apply Ledger.Step.returns
      intro index hindex
      rw [eq_of_beq hzero, UInt64.lt_iff_toNat_lt] at hindex
      exact absurd hindex (Nat.not_lt_zero _)
    have howns : ((p.note (.calls call)).note .returns).owner = .owns := ho
    exact ⟨(kept_owns howns).mpr ⟨h.stopping, h.some, h.waiting, h.absent,
      accepts_snoc hcalled hreturns⟩, .inl howns⟩
  · have hpos := h.some
    have hnot : (0 == threads) = false := by
      rw [beq_eq_false_iff_ne]
      intro heq
      rw [← heq] at hpos
      exact Nat.lt_irrefl _ hpos
    have hnew : p.generation ≠ p.generation + 1 := by
      intro heq
      have htoNat := congrArg UInt64.toNat heq
      rw [UInt64.toNat_add] at htoNat
      change p.generation.toNat = (p.generation.toNat + 1) % 2 ^ 64 at htoNat
      omega
    have hserving : ∀ one < threads.toNat, (p.serving one).notify = .waits p.generation true := by
      intro one hone
      rw [h.waiting one hone]
      rfl
    have habsent : ∀ one, threads.toNat ≤ one → (p.serving one).notify = .absent := by
      intro one hone
      rw [h.absent one hone]
      rfl
    have hheld : ∀ one, (p.serving one).notify.Free := by
      intro one
      by_cases hone : one < threads.toNat
      · rw [hserving one hone]
        exact free_waits _ _
      · rw [habsent one (Nat.not_lt.mp hone)]
        exact free_absent
    have hrun : ({ p.note (.calls call) with
        task := call.task
        context := call.context
        count := call.count
        done := 0
        next := 0
        generation := p.generation + 1
        serving := fun slot => (p.serving slot).notify
        owner := .waitsFinished false } : ThreadPool T C E).InRun threads call [] [] false := by
      refine ⟨rfl, h.stopping, rfl, ⟨hc, ?_, habsent, ?_, ?_⟩, ⟨?_, ?_, ?_, ?_, ?_, nodup_nil⟩,
        hcalled, ?_⟩
      · intro one hone
        show (p.serving one).notify.In _ _
        rw [hserving one hone]
        exact .inl ⟨hnew, rfl⟩
      · rw [tally_const (c := 0)]
        · rw [Nat.mul_zero]
          exact (Nat.zero_sub _).symm
        · intro one hone
          simp [hserving one hone, left]
      · rw [tally_const (c := 0)]
        · exact Nat.mul_zero _
        · intro one hone
          simp [hserving one hone, finished]
      · intro index hmem
        cases hmem
      · intro index hindex
        rw [UInt64.lt_iff_toNat_lt] at hindex
        exact absurd hindex (Nat.not_lt_zero _)
      · intro one index hone
        exact absurd hone ((hheld one).1 _ _ _)
      · intro one other index hone
        exact absurd hone ((hheld one).1 _ _ _)
      · intro one index
        refine ⟨fun h => (by cases h), ?_⟩
        intro hone
        exact absurd hone ((hheld one).2 _ _ _)
      · refine ⟨fun h => (by cases h), ?_⟩
        intro hdone
        exact absurd hdone (beq_eq_false_iff_ne.mp hnot)
    simp only [await, hnot, Bool.false_eq_true, if_false]
    refine ⟨(kept_waitsFinished rfl).mpr ⟨hpos, call, [], [], hrun⟩, .inr ⟨[], [], false, hrun, ?_⟩⟩
    have heffort : tally (effort (p.generation + 1))
        (fun slot => (p.serving slot).notify) threads.toNat = threads.toNat * 3 := by
      apply tally_const
      intro one hone
      simp [hserving one hone, effort]
    simp only [remaining, heffort]
    show 3 * (call.count.toNat - 0) + _ + 1 = _
    omega

theorem idle_step (ho : p.owner = .owns) (h : p.Idle threads) (e : PoolEvent T C E)
    (hc : ∀ call, e = .run call → call.count.toNat + threads.toNat < 2 ^ 64) :
    (p.step threads e).Kept threads := by
  have hsame : p.Kept threads := (kept_owns ho).mpr h
  cases e with
  | report one failure =>
    rw [report_same failure (h.quiet one).ne_prepares]
    exact hsame
  | serve one =>
    rw [serve_same h.stopping (.inl (h.quiet one))]
    exact hsame
  | destroy =>
    simp only [step, ho]
    exact destroy_kept _ h.log h.quiet
  | run call =>
    simp only [step, ho]
    exact (call_kept ho h call (hc call rfl)).1
  | _ => simpa only [step, wake, join, ho] using hsame

variable {running : List (Nat × UInt64)}

section

variable {call : Call T C} {begun : List UInt64} (h : p.InRun threads call begun running notified)
  (hpos : 0 < threads.toNat)
include h hpos

/-- Once every thread has reported, every index was begun and every task has returned. -/
theorem await_returns
    (hd : p.done = threads) : (p.await threads).owner = .owns ∧ (p.await threads).Kept threads := by
  have hfinished : ∀ one < threads.toNat, p.serving one = .waits p.generation false := by
    intro one hone
    have hdone := h.counts.done
    rw [hd] at hdone
    have hone' := forall_of_tally_eq (finished_le_one p.generation) hdone one hone
    have hin := h.counts.within one hone
    cases hw : p.serving one with
    | waits seen b =>
      rw [hw] at hin hone'
      rcases hin with ⟨hg, _⟩ | ⟨hg, hb⟩
      · simp only [finished, if_neg hg] at hone'
        cases hone'
      · rw [hg, hb]
    | _ =>
      rw [hw] at hone'
      cases hone'
  have hfree : ∀ one, (p.serving one).Free := by
    intro one
    by_cases hone : one < threads.toNat
    · rw [hfinished one hone]
      exact free_waits _ _
    · rw [h.counts.outside one (Nat.not_lt.mp hone)]
      exact free_absent
  have hnone : running = [] := by
    apply eq_nil_iff_forall_not_mem.mpr
    intro pair hmem
    have hinvokes := (h.indices.invoked pair.1 pair.2).mp hmem
    exact absurd hinvokes ((hfree pair.1).2 _ _ _)
  have hleft : threads.toNat = p.next.toNat - call.count.toNat := by
    rw [← h.counts.left, tally_const (c := 1), Nat.mul_one]
    intro one hone
    simp [hfinished one hone, left]
  have hall : ∀ index < call.count, index ∈ begun := by
    intro index hindex
    have hnext : index < p.next := by
      rw [UInt64.lt_iff_toNat_lt] at hindex ⊢
      omega
    rcases h.indices.taken index hnext hindex with hmem | ⟨one, hone⟩
    · exact hmem
    · exact absurd hone ((hfree one).1 _ _ _)
  have hreturns : Ledger.Accepts .between (p.log ++ [.returns]) .between := by
    have hlog := h.log
    rw [hnone] at hlog
    exact accepts_snoc hlog (.returns hall)
  have hawait : p.await threads = { p.note .returns with owner := .owns } := by
    rw [await, hd, beq_self_eq_true, if_pos rfl]
  rw [hawait]
  exact ⟨rfl, (kept_owns rfl).mpr ⟨h.stopping, hpos, hfinished, h.counts.outside, hreturns⟩⟩

/-- It returns, or goes on with less to do when the thread was not merely woken. -/
theorem inRun_step (e : PoolEvent T C E) :
    (p.step threads e).owner = .owns ∧ (p.step threads e).Kept threads ∨
      Advances threads call p (p.step threads e) (p.ready e) := by
  have ho := h.owner
  have hnotPrepares : ∀ one, p.serving one ≠ .prepares := by
    intro one hone
    by_cases hlt : one < threads.toNat
    · have hin := h.counts.within one hlt
      rw [hone] at hin
      exact hin
    · have hout := h.counts.outside one (Nat.not_lt.mp hlt)
      rw [hone] at hout
      cases hout
  cases e with
  | serve one => exact .inr (serve_advances h one)
  | report one failure =>
    rw [report_same failure (hnotPrepares one)]
    exact .inr (advances_stays h)
  | wake =>
    simp only [step, wake, ho, ready]
    by_cases hd : p.done = threads
    · exact .inl (await_returns h hpos hd)
    · have hnot : notified = false := by
        rw [← Bool.not_eq_true, h.signal]
        exact hd
      have hawait : p.await threads = p := by
        rw [await, if_neg (by rw [beq_iff_eq]; exact hd)]
        cases p
        simp only at ho ⊢
        rw [ho, hnot]
      rw [hawait, hnot]
      exact .inr (advances_stays h)
  | _ => simpa only [step, join, ho, ready] using .inr (advances_stays h)

end

theorem step_kept (h : p.Kept threads) (e : PoolEvent T C E)
    (hc : ∀ call, e = .run call → call.count.toNat + threads.toNat < 2 ^ 64) :
    (p.step threads e).Kept threads := by
  cases ho : p.owner with
  | starts slot => exact starting_step ho ((kept_starts ho).mp h) e
  | waitsReported slot notified => exact reporting_step ho ((kept_waitsReported ho).mp h) e
  | owns => exact idle_step ho ((kept_owns ho).mp h) e hc
  | waitsFinished notified =>
    obtain ⟨hpos, call, begun, running, hrun⟩ := (kept_waitsFinished ho).mp h
    rcases inRun_step hrun hpos e with hreturned | hadvances
    · exact hreturned.2
    · obtain ⟨begun', running', notified', hrun'⟩ := hadvances.inRun
      exact (kept_waitsFinished hrun'.owner).mpr ⟨hpos, call, begun', running', hrun'⟩
  | joins one failure => exact closed_step (.inl ⟨one, failure, ho⟩) ((kept_joins ho).mp h) e
  | ended failure => exact closed_step (.inr ⟨failure, ho⟩) ((kept_ended ho).mp h) e

theorem make_kept (threads : UInt64) : (make threads : ThreadPool T C E).Kept threads := by
  rw [make]
  split_ifs with hzero
  · exact (kept_ended rfl).mpr ⟨fun _ => .inl rfl, .nil _⟩
  · refine (kept_starts rfl).mpr ⟨rfl, ?_, ?_, fun _ _ => ⟨rfl, rfl⟩, .nil _⟩
    · apply Nat.pos_of_ne_zero
      intro hnone
      exact hzero (beq_iff_eq.mpr (UInt64.toNat_inj.mp hnone))
    · intro one hone
      exact absurd hone (Nat.not_lt_zero _)

theorem after_kept (threads : UInt64) (es : List (PoolEvent T C E))
    (hc : ∀ call, .run call ∈ es → call.count.toNat + threads.toNat < 2 ^ 64) :
    (after threads es).Kept threads := by
  have hinv := run_inv_ahead (step threads)
    (fun (p : ThreadPool T C E) es => p.Kept threads ∧
      ∀ call, .run call ∈ es → call.count.toNat + threads.toNat < 2 ^ 64)
    (fun p e es h => by
      refine ⟨step_kept h.1 e ?_, ?_⟩
      · intro call heq
        exact h.2 call (heq ▸ (by simp))
      · intro call hmem
        exact h.2 call (by simp [hmem]))
    (make threads) es ⟨make_kept threads, hc⟩
  exact hinv.1

theorem kept_accepts (h : p.Kept threads) : ∃ ledger, Ledger.Accepts .between p.log ledger := by
  cases ho : p.owner with
  | starts slot => exact ⟨_, ((kept_starts ho).mp h).log⟩
  | waitsReported slot notified => exact ⟨_, ((kept_waitsReported ho).mp h).log⟩
  | owns => exact ⟨_, ((kept_owns ho).mp h).log⟩
  | waitsFinished notified =>
    obtain ⟨_, call, begun, running, hrun⟩ := (kept_waitsFinished ho).mp h
    exact ⟨_, hrun.log⟩
  | joins one failure => exact ⟨_, ((kept_joins ho).mp h).log⟩
  | ended failure => exact ⟨_, ((kept_ended ho).mp h).log⟩

theorem inRun_ready {call : Call T C} {begun : List UInt64}
    (h : p.InRun threads call begun running notified) :
    ∃ e, p.ready e = true := by
  by_cases hd : p.done = threads
  · refine ⟨.wake, ?_⟩
    simp only [ready, h.owner]
    exact h.signal.mpr hd
  · by_contra hnone
    push Not at hnone
    apply hd
    apply UInt64.toNat_inj.mp
    rw [← h.counts.done, tally_const (c := 1), Nat.mul_one]
    intro one hone
    have hin := h.counts.within one hone
    have hready := hnone (.serve one)
    cases hw : p.serving one with
    | waits seen b =>
      rw [hw] at hin
      rcases hin with ⟨_, hb⟩ | ⟨hg, _⟩
      · simp only [ready, hw] at hready
        exact absurd hb hready
      · simp [finished, hg]
    | absent => rw [hw] at hin; cases hin
    | prepares => rw [hw] at hin; cases hin
    | exited => rw [hw] at hin; cases hin
    | _ =>
      simp only [ready, hw] at hready
      exact absurd rfl hready

/-- The steps among the events of threads that were not merely woken. -/
def readySteps (threads : UInt64) : ThreadPool T C E → List (PoolEvent T C E) → Nat
  | _, [] => 0
  | p, e :: es => (if p.ready e then 1 else 0) + readySteps threads (p.step threads e) es

theorem inRun_returns {call : Call T C} {begun : List UInt64}
    (h : p.InRun threads call begun running notified) (hpos : 0 < threads.toNat)
    (es : List (PoolEvent T C E)) (hl : p.remaining threads ≤ readySteps threads p es) :
    ∃ front back, es = front ++ back ∧ (run (step threads) p front).owner = .owns := by
  induction es generalizing p begun running notified with
  | nil =>
    have hzero : p.remaining threads ≤ 0 := hl
    rw [remaining] at hzero
    omega
  | cons e es ih =>
    rw [readySteps] at hl
    rcases inRun_step h hpos e with ⟨howns, _⟩ | hadvances
    · exact ⟨[e], es, rfl, howns⟩
    · obtain ⟨begun', running', notified', hrun⟩ := hadvances.inRun
      have hless := hadvances.less
      obtain ⟨front, back, hsplit, howns⟩ := ih hrun (by omega)
      exact ⟨e :: front, back, by rw [hsplit, cons_append], howns⟩

structure RunsEveryIndexOnce (threads : UInt64) (es : List (PoolEvent T C E)) : Prop where
  contract : Keeps (after threads es).log
  /-- A run never stands still. -/
  progress : ∀ notified, (after threads es).owner = .waitsFinished notified →
    ∃ e, (after threads es).ready e = true
  /-- Three steps for an index and three for a thread, and the run has returned. -/
  returns : ∀ call fs, (after threads es).owner = .owns →
    call.count.toNat + threads.toNat < 2 ^ 64 →
    3 * call.count.toNat + 3 * threads.toNat + 1 ≤
      readySteps threads (after threads (es ++ [.run call])) fs →
    ∃ front back, fs = front ++ back ∧ (after threads (es ++ .run call :: front)).owner = .owns

/-- Whatever the threads do in whatever order, every run of the pool keeps the contract. -/
theorem thread_pool_runs_every_index_once (threads : UInt64) (es : List (PoolEvent T C E))
    (hc : ∀ call, .run call ∈ es → call.count.toNat + threads.toNat < 2 ^ 64) :
    RunsEveryIndexOnce threads es := by
  have hkept := after_kept threads es hc
  obtain ⟨ledger, hledger⟩ := kept_accepts hkept
  refine ⟨keeps_of_accepts hledger, ?_, ?_⟩
  · intro notified ho
    obtain ⟨_, call, begun, running, hrun⟩ := (kept_waitsFinished ho).mp hkept
    exact inRun_ready hrun
  · intro call fs ho hbound hsteps
    have hidle := (kept_owns ho).mp hkept
    have hcall : after threads (es ++ [.run call]) = (after threads es).call threads call := by
      rw [after, run_append]
      show step threads (after threads es) (.run call) = _
      rw [step, ho]
    rw [hcall] at hsteps
    rcases (call_kept ho hidle call hbound).2 with howns | ⟨begun, running, notified, hrun, hleft⟩
    · refine ⟨[], fs, rfl, ?_⟩
      rw [hcall]
      exact howns
    · obtain ⟨front, back, hsplit, howns⟩ := inRun_returns hrun hidle.some fs (by omega)
      refine ⟨front, back, hsplit, ?_⟩
      rw [after, append_cons, run_append]
      show (run (step threads) (after threads (es ++ [.run call])) front).owner = _
      rw [hcall]
      exact howns

/-- Two threads share three indices, and the second begins before the first. -/
def sharedRun : List (PoolEvent Nat Nat Unit) :=
  [.start none, .report 0 none, .wake, .start none, .report 1 none, .wake, .run ⟨3, 7, 8⟩, .serve 0,
    .serve 1, .serve 0, .serve 1, .serve 1, .serve 0, .serve 1, .serve 1, .serve 0, .serve 0,
    .serve 1, .serve 1, .serve 0, .serve 0, .serve 1, .serve 0, .serve 1, .wake]

theorem shared_run_runs_each_index_once :
    RunsEveryIndexOnce 2 sharedRun ∧ (after 2 sharedRun).log =
      [.calls ⟨3, 7, 8⟩, .begins 7 8 1 1, .begins 7 8 0 0, .ends 7 8 1 1, .ends 7 8 0 0,
        .begins 7 8 2 1, .ends 7 8 2 1, .returns] := by
  refine ⟨thread_pool_runs_every_index_once 2 sharedRun ?_, rfl⟩
  intro call hmem
  simp only [sharedRun, mem_cons, not_mem_nil, reduceCtorEq, false_or, or_false,
    PoolEvent.run.injEq] at hmem
  rw [hmem]
  decide

end ThreadPool

end LoadForge.Worker.Executor
