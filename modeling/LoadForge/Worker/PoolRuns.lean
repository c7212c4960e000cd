import LoadForge.Framework.Tally
import LoadForge.Worker.ThreadPool

namespace LoadForge.Worker.Executor

open Framework List Function

variable {T C E : Type}

/-- Where a thread is while a run goes on: it has not seen the run yet, or works for it, or is done
with it. -/
def Serving.In (generation : UInt64) (call : Call T C) : Serving T C → Prop
  | .waits seen notified =>
    seen ≠ generation ∧ notified = true ∨ seen = generation ∧ notified = false
  | .claims seen own => seen = generation ∧ own = call
  | .claimed seen own _ => seen = generation ∧ own = call
  | .invokes seen own _ => seen = generation ∧ own = call
  | .leaves seen => seen = generation
  | _ => False

def Serving.left (generation : UInt64) : Serving T C → Nat
  | .waits seen _ => if seen = generation then 1 else 0
  | .leaves _ => 1
  | _ => 0

def Serving.finished (generation : UInt64) : Serving T C → Nat
  | .waits seen _ => if seen = generation then 1 else 0
  | _ => 0

/-- The steps a thread still makes in a run, those for indices not yet claimed apart. -/
def Serving.effort (generation : UInt64) : Serving T C → Nat
  | .waits seen _ => if seen = generation then 0 else 3
  | .claims .. => 2
  | .claimed .. => 4
  | .invokes .. => 3
  | .leaves _ => 1
  | _ => 0

theorem left_le_one (generation : UInt64) (w : Serving T C) : w.left generation ≤ 1 := by
  unfold Serving.left
  split
  · split_ifs <;> omega
  · omega
  · omega

theorem finished_le_one (generation : UInt64) (w : Serving T C) : w.finished generation ≤ 1 := by
  unfold Serving.finished
  split
  · split_ifs <;> omega
  · omega

/-- The counters of a run against where its threads are. -/
structure Counts (n : Nat) (generation : UInt64) (call : Call T C) (serving : Nat → Serving T C)
    (next done : UInt64) : Prop where
  bound : call.count.toNat + n < 2 ^ 64
  within : ∀ slot < n, (serving slot).In generation call
  outside : ∀ slot, n ≤ slot → serving slot = .absent
  left : tally (Serving.left generation) serving n = next.toNat - call.count.toNat
  done : tally (Serving.finished generation) serving n = done.toNat

/-- Every index of a run is still to be claimed, or claimed by one thread, or was begun. -/
structure Indices (generation : UInt64) (call : Call T C) (serving : Nat → Serving T C)
    (next : UInt64) (begun : List UInt64) (running : List (Nat × UInt64)) : Prop where
  below : ∀ index ∈ begun, index < next ∧ index < call.count
  taken : ∀ index, index < next → index < call.count →
    index ∈ begun ∨ ∃ slot, serving slot = .claimed generation call index
  pending : ∀ slot index, serving slot = .claimed generation call index →
    index ∉ begun ∧ index < next ∧ index < call.count
  distinct : ∀ slot other index, serving slot = .claimed generation call index →
    serving other = .claimed generation call index → slot = other
  invoked : ∀ slot index, (slot, index) ∈ running ↔
    serving slot = .invokes generation call index
  once : running.Nodup

theorem counts_update {n : Nat} {generation : UInt64} {call : Call T C}
    {serving : Nat → Serving T C} {next done next' done' : UInt64}
    (h : Counts n generation call serving next done) {slot : Nat} (hs : slot < n)
    {w : Serving T C} (hw : w.In generation call)
    (hl : (next.toNat - call.count.toNat) + w.left generation =
      (next'.toNat - call.count.toNat) + (serving slot).left generation)
    (hd : done.toNat + w.finished generation = done'.toNat + (serving slot).finished generation) :
    Counts n generation call (update serving slot w) next' done' := by
  have hleft := tally_update (Serving.left generation) serving w hs
  have hdone := tally_update (Serving.finished generation) serving w hs
  have hleft' := h.left
  have hdone' := h.done
  refine ⟨h.bound, ?_, ?_, by omega, by omega⟩
  · intro other hother
    by_cases heq : other = slot
    · rw [heq, update_self]
      exact hw
    · rw [update_of_ne heq]
      exact h.within other hother
  · intro other hother
    rw [update_of_ne (by omega)]
    exact h.outside other hother

/-- Neither of the states in which a thread holds an index. -/
def Serving.Free (w : Serving T C) : Prop :=
  (∀ seen call index, w ≠ .claimed seen call index) ∧ ∀ seen call index, w ≠ .invokes seen call index

theorem free_absent : (Serving.absent : Serving T C).Free := by
  constructor
  all_goals intro seen call index h; cases h

theorem free_waits (seen : UInt64) (notified : Bool) :
    (Serving.waits seen notified : Serving T C).Free := ⟨nofun, nofun⟩

theorem free_claims (seen : UInt64) (call : Call T C) : (Serving.claims seen call).Free :=
  ⟨nofun, nofun⟩

theorem free_leaves (seen : UInt64) : (Serving.leaves seen : Serving T C).Free := ⟨nofun, nofun⟩

section Update

variable {generation : UInt64} {call : Call T C} {serving : Nat → Serving T C} {next next' : UInt64}
  {begun : List UInt64} {running : List (Nat × UInt64)} {slot : Nat} {w : Serving T C}

theorem update_eq_of_free (hw : (serving slot).Free) {v : Serving T C} (hv : ¬v.Free) (other : Nat) :
    update serving slot w other = v ↔ (other = slot ∧ w = v) ∨ serving other = v := by
  by_cases heq : other = slot
  · rw [heq, update_self]
    constructor
    · intro h
      exact .inl ⟨rfl, h⟩
    · intro h
      rcases h with h | h
      · exact h.2
      · exact absurd (h ▸ hw) hv
  · rw [update_of_ne heq]
    constructor
    · exact Or.inr
    · intro h
      rcases h with h | h
      · exact absurd h.1 heq
      · exact h

theorem update_free_iff (hs : (serving slot).Free) (hw : w.Free) {v : Serving T C} (hv : ¬v.Free)
    (other : Nat) : update serving slot w other = v ↔ serving other = v := by
  rw [update_eq_of_free hs hv, or_iff_right]
  rintro ⟨-, rfl⟩
  exact hv hw

theorem not_free_claimed (seen : UInt64) (call : Call T C) (index : UInt64) :
    ¬(Serving.claimed seen call index).Free := fun h => h.1 seen call index rfl

theorem not_free_invokes (seen : UInt64) (call : Call T C) (index : UInt64) :
    ¬(Serving.invokes seen call index).Free := fun h => h.2 seen call index rfl

variable (h : Indices generation call serving next begun running)

include h

theorem indices_free (hs : (serving slot).Free) (hw : w.Free)
    (hn : ∀ index < call.count, index < next' ↔ index < next) :
    Indices generation call (update serving slot w) next' begun running := by
  have hclaimed : ∀ other index, update serving slot w other =
      .claimed generation call index ↔ serving other = .claimed generation call index :=
    fun other index => update_free_iff hs hw (not_free_claimed _ _ _) other
  refine ⟨?_, ?_, ?_, ?_, ?_, h.once⟩
  · intro index hmem
    obtain ⟨hnext, hcount⟩ := h.below index hmem
    exact ⟨(hn index hcount).mpr hnext, hcount⟩
  · intro index hnext hcount
    rcases h.taken index ((hn index hcount).mp hnext) hcount with hmem | ⟨other, hother⟩
    · exact .inl hmem
    · exact .inr ⟨other, (hclaimed other index).mpr hother⟩
  · intro other index hother
    obtain ⟨hmem, hnext, hcount⟩ := h.pending other index ((hclaimed other index).mp hother)
    exact ⟨hmem, (hn index hcount).mpr hnext, hcount⟩
  · intro one other index hone hother
    exact h.distinct one other index ((hclaimed one index).mp hone) ((hclaimed other index).mp hother)
  · intro other index
    rw [h.invoked, update_free_iff hs hw (not_free_invokes _ _ _)]

theorem indices_claim (hs : (serving slot).Free) (hc : next < call.count)
    (hn : next'.toNat = next.toNat + 1) :
    Indices generation call (update serving slot (.claimed generation call next)) next'
      begun running := by
  have hlt : ∀ index : UInt64, index < next' ↔ index < next ∨ index = next := by
    intro index
    rw [UInt64.lt_iff_toNat_lt, UInt64.lt_iff_toNat_lt, ← UInt64.toNat_inj]
    omega
  have hself : ¬next < next := by
    rw [UInt64.lt_iff_toNat_lt]
    omega
  have hclaimed : ∀ other index, update serving slot (.claimed generation call next) other =
      .claimed generation call index ↔
        (other = slot ∧ index = next) ∨ serving other = .claimed generation call index := by
    intro other index
    rw [update_eq_of_free hs (not_free_claimed _ _ _)]
    simp only [Serving.claimed.injEq, true_and, eq_comm]
  refine ⟨?_, ?_, ?_, ?_, ?_, h.once⟩
  · intro index hmem
    obtain ⟨hnext, hcount⟩ := h.below index hmem
    exact ⟨(hlt index).mpr (.inl hnext), hcount⟩
  · intro index hnext hcount
    rcases (hlt index).mp hnext with hold | hnew
    · rcases h.taken index hold hcount with hmem | ⟨other, hother⟩
      · exact .inl hmem
      · exact .inr ⟨other, (hclaimed other index).mpr (.inr hother)⟩
    · exact .inr ⟨slot, (hclaimed slot index).mpr (.inl ⟨rfl, hnew⟩)⟩
  · intro other index hother
    rcases (hclaimed other index).mp hother with ⟨_, hnew⟩ | hold
    · rw [hnew]
      refine ⟨?_, (hlt next).mpr (.inr rfl), hc⟩
      intro hmem
      exact hself (h.below next hmem).1
    · obtain ⟨hmem, hnext, hcount⟩ := h.pending other index hold
      exact ⟨hmem, (hlt index).mpr (.inl hnext), hcount⟩
  · intro one other index hone hother
    rcases (hclaimed one index).mp hone with ⟨hone', hnew⟩ | hold
    · rcases (hclaimed other index).mp hother with ⟨hother', _⟩ | hold'
      · rw [hone', hother']
      · exact absurd (h.pending other index hold').2.1 (hnew ▸ hself)
    · rcases (hclaimed other index).mp hother with ⟨_, hnew⟩ | hold'
      · exact absurd (h.pending one index hold).2.1 (hnew ▸ hself)
      · exact h.distinct one other index hold hold'
  · intro other index
    rw [h.invoked, update_eq_of_free hs (not_free_invokes _ _ _), or_iff_right]
    rintro ⟨-, heq⟩
    cases heq

theorem indices_begin {index : UInt64} (hs : serving slot = .claimed generation call index) :
    Indices generation call (update serving slot (.invokes generation call index)) next
      (begun ++ [index]) ((slot, index) :: running) := by
  obtain ⟨hfresh, hnext, hcount⟩ := h.pending slot index hs
  have hclaimed : ∀ other one, update serving slot (.invokes generation call index) other =
      .claimed generation call one → other ≠ slot ∧ serving other = .claimed generation call one := by
    intro other one hother
    by_cases heq : other = slot
    · rw [heq, update_self] at hother
      cases hother
    · rw [update_of_ne heq] at hother
      exact ⟨heq, hother⟩
  have hnot : (slot, index) ∉ running := by
    intro hmem
    have hinvokes := (h.invoked slot index).mp hmem
    rw [hs] at hinvokes
    cases hinvokes
  refine ⟨?_, ?_, ?_, ?_, ?_, nodup_cons.mpr ⟨hnot, h.once⟩⟩
  · exact forall_mem_append.mpr ⟨h.below, forall_mem_singleton.mpr ⟨hnext, hcount⟩⟩
  · intro one hone hbelow
    rcases h.taken one hone hbelow with hmem | ⟨other, hother⟩
    · exact .inl (by simp [hmem])
    · by_cases heq : other = slot
      · rw [heq, hs] at hother
        cases hother
        exact .inl (mem_append_right _ (by simp))
      · refine .inr ⟨other, ?_⟩
        rw [update_of_ne heq]
        exact hother
  · intro other one hother
    obtain ⟨hne, hold⟩ := hclaimed other one hother
    obtain ⟨hmem, hone, hbelow⟩ := h.pending other one hold
    refine ⟨?_, hone, hbelow⟩
    intro hin
    rcases mem_append.mp hin with hin | hin
    · exact hmem hin
    · rw [mem_singleton.mp hin] at hold
      exact hne (h.distinct other slot index hold hs)
  · intro one other i hone hother
    exact h.distinct one other i (hclaimed one i hone).2 (hclaimed other i hother).2
  · intro other one
    rw [mem_cons, h.invoked]
    by_cases heq : other = slot
    · rw [heq, update_self, hs]
      constructor
      · intro hor
        rcases hor with hor | hor
        · cases hor
          rfl
        · cases hor
      · intro hone
        cases hone
        exact .inl rfl
    · rw [update_of_ne heq]
      constructor
      · intro hor
        rcases hor with hor | hor
        · cases hor
          exact absurd rfl heq
        · exact hor
      · exact Or.inr

theorem indices_end {index : UInt64}
    (hs : serving slot = .invokes generation call index) (hw : w.Free) :
    Indices generation call (update serving slot w) next begun
      (running.erase (slot, index)) := by
  have hclaimed : ∀ other one, update serving slot w other =
      .claimed generation call one ↔ serving other = .claimed generation call one := by
    intro other one
    by_cases heq : other = slot
    · rw [heq, update_self, hs]
      constructor
      · intro hone
        exact absurd (hone ▸ hw) (not_free_claimed _ _ _)
      · intro hone
        cases hone
    · rw [update_of_ne heq]
  refine ⟨h.below, ?_, ?_, ?_, ?_, h.once.erase _⟩
  · intro one hone hbelow
    rcases h.taken one hone hbelow with hmem | ⟨other, hother⟩
    · exact .inl hmem
    · exact .inr ⟨other, (hclaimed other one).mpr hother⟩
  · intro other one hother
    exact h.pending other one ((hclaimed other one).mp hother)
  · intro one other i hone hother
    exact h.distinct one other i ((hclaimed one i).mp hone) ((hclaimed other i).mp hother)
  · intro other one
    rw [h.once.mem_erase_iff, h.invoked]
    by_cases heq : other = slot
    · rw [heq, update_self, hs]
      constructor
      · intro hand
        obtain ⟨hne, hone⟩ := hand
        cases hone
        exact absurd rfl hne
      · intro hone
        exact absurd (hone ▸ hw) (not_free_invokes _ _ _)
    · rw [update_of_ne heq]
      constructor
      · exact And.right
      · intro hone
        refine ⟨?_, hone⟩
        intro hpair
        cases hpair
        exact heq rfl

end Update

variable [Inhabited T] [Inhabited C]

namespace ThreadPool

/-- A run is going on, of which the contract's account is kept in the log. -/
structure InRun (threads : UInt64) (p : ThreadPool T C E) (call : Call T C) (begun : List UInt64)
    (running : List (Nat × UInt64)) (notified : Bool) : Prop where
  owner : p.owner = .waitsFinished notified
  stopping : p.stopping = false
  published : ⟨p.count, p.task, p.context⟩ = call
  counts : Counts threads.toNat p.generation call p.serving p.next p.done
  indices : Indices p.generation call p.serving p.next begun running
  log : Ledger.Accepts .between p.log (.during call begun running)
  signal : notified = true ↔ p.done = threads

def remaining (threads : UInt64) (p : ThreadPool T C E) : Nat :=
  3 * (p.count.toNat - p.next.toNat) +
    tally (Serving.effort p.generation) p.serving threads.toNat + 1

/-- Whether an event is a step of a thread that does not wait, or was notified. -/
def ready (p : ThreadPool T C E) : PoolEvent T C E → Bool
  | .serve slot =>
    match p.serving slot with
    | .waits _ notified => notified
    | .claims .. | .claimed .. | .invokes .. | .leaves _ => true
    | _ => false
  | .wake =>
    match p.owner with
    | .waitsFinished notified => notified
    | _ => false
  | _ => false

structure Advances (threads : UInt64) (call : Call T C) (p q : ThreadPool T C E) (ready : Bool) :
    Prop where
  inRun : ∃ begun running notified, q.InRun threads call begun running notified
  less : q.remaining threads + (if ready then 1 else 0) ≤ p.remaining threads

variable {threads : UInt64} {p : ThreadPool T C E} {call : Call T C} {begun : List UInt64}
  {running : List (Nat × UInt64)} {notified : Bool} {slot : Nat}

theorem look_same (hs : p.stopping = false) (seen : UInt64) (hg : p.generation = seen) :
    p.look slot seen = p.setServing slot (.waits seen false) := by
  rw [look, hg, hs]
  simp

theorem look_new (hs : p.stopping = false) (seen : UInt64) (hg : p.generation ≠ seen) :
    p.look slot seen = p.setServing slot (.claims p.generation ⟨p.count, p.task, p.context⟩) := by
  rw [look, hs]
  simp [hg]

theorem setServing_self {w : Serving T C} (h : p.serving slot = w) : p.setServing slot w = p := by
  rw [setServing, ← h, update_eq_self]

theorem advances_stays (h : p.InRun threads call begun running notified) :
    Advances threads call p p false :=
  ⟨⟨begun, running, notified, h⟩, Nat.le_refl _⟩

section Serve

variable (h : p.InRun threads call begun running notified) (hs : slot < threads.toNat)

include h hs

/-- A thread goes on to `w`, and the run with it when the counters and indices agree. -/
theorem advances_of {w : Serving T C} {next done : UInt64} {log : List (Entry T C)}
    {owner : Owning E} {begun' : List UInt64} {running' : List (Nat × UInt64)} {notified' : Bool}
    (hin : w.In p.generation call)
    (hleft : (p.next.toNat - call.count.toNat) + w.left p.generation =
      (next.toNat - call.count.toNat) + (p.serving slot).left p.generation)
    (hdone : p.done.toNat + w.finished p.generation =
      done.toNat + (p.serving slot).finished p.generation)
    (hless : 3 * (call.count.toNat - next.toNat) + w.effort p.generation <
      3 * (call.count.toNat - p.next.toNat) + (p.serving slot).effort p.generation)
    (hindices : Indices p.generation call (update p.serving slot w) next begun' running')
    (hlog : Ledger.Accepts .between log (.during call begun' running'))
    (howner : owner = .waitsFinished notified') (hsignal : notified' = true ↔ done = threads) :
    Advances threads call p { p with
      next := next
      done := done
      log := log
      owner := owner
      serving := update p.serving slot w } true := by
  have hcount : p.count = call.count := congrArg Call.count h.published
  have heffort := tally_update (Serving.effort p.generation) p.serving w hs
  refine ⟨⟨begun', running', notified', howner, h.stopping, h.published,
    counts_update h.counts hs hin hleft hdone, hindices, hlog, hsignal⟩, ?_⟩
  simp only [remaining, if_true, hcount]
  omega

theorem advances_wakes {seen : UInt64} {b : Bool} (hw : p.serving slot = .waits seen b)
    (hg : seen ≠ p.generation) :
    Advances threads call p (p.setServing slot (.claims p.generation call)) true := by
  refine advances_of h hs ⟨rfl, rfl⟩ ?_ ?_ ?_ ?_ h.log h.owner h.signal
  · simp [hw, Serving.left, hg]
  · simp [hw, Serving.finished, hg]
  · simp [hw, Serving.effort, hg]
  · exact indices_free h.indices (hw ▸ free_waits seen b) (free_claims _ _) fun _ _ => Iff.rfl

theorem next_succ (hw : (p.serving slot).left p.generation = 0) :
    (p.next + 1).toNat = p.next.toNat + 1 := by
  have hleft := tally_lt (left_le_one p.generation) hs hw
  rw [h.counts.left] at hleft
  have hbound := h.counts.bound
  rw [UInt64.toNat_add]
  show (p.next.toNat + 1) % 2 ^ 64 = _
  omega

theorem advances_claims (hw : p.serving slot = .claims p.generation call)
    (hc : p.next < call.count) :
    Advances threads call p ({ p with next := p.next + 1 }.setServing slot
      (.claimed p.generation call p.next)) true := by
  have hnext := next_succ h hs (by rw [hw]; rfl)
  have hlt : p.next.toNat < call.count.toNat := UInt64.lt_iff_toNat_lt.mp hc
  refine advances_of h hs ⟨rfl, rfl⟩ ?_ ?_ ?_ ?_ h.log h.owner h.signal
  · simp only [hw, Serving.left]
    omega
  · rw [hw]
    rfl
  · simp only [hw, Serving.effort]
    omega
  · exact indices_claim h.indices (hw ▸ free_claims _ _) hc hnext

theorem advances_leaves (hw : p.serving slot = .claims p.generation call)
    (hc : ¬p.next < call.count) :
    Advances threads call p ({ p with next := p.next + 1 }.setServing slot
      (.leaves p.generation)) true := by
  have hnext := next_succ h hs (by rw [hw]; rfl)
  rw [UInt64.lt_iff_toNat_lt] at hc
  refine advances_of h hs rfl ?_ ?_ ?_ ?_ h.log h.owner h.signal
  · simp only [hw, Serving.left]
    omega
  · rw [hw]
    rfl
  · simp only [hw, Serving.effort]
    omega
  · apply indices_free h.indices (hw ▸ free_claims _ _) (free_leaves _)
    intro index hindex
    show index < p.next + 1 ↔ index < p.next
    rw [UInt64.lt_iff_toNat_lt] at hindex ⊢
    rw [UInt64.lt_iff_toNat_lt]
    omega

/-- The task is invoked: for an index of the run, for the first time, in a slot that is free. -/
theorem advances_invokes {index : UInt64} (hw : p.serving slot = .claimed p.generation call index) :
    Advances threads call p ((p.note (.begins call.task call.context index slot)).setServing slot
      (.invokes p.generation call index)) true := by
  obtain ⟨hfresh, _, hcount⟩ := h.indices.pending slot index hw
  have hfree : ∀ other, (slot, other) ∉ running := by
    intro other hmem
    have hinvokes := (h.indices.invoked slot other).mp hmem
    rw [hw] at hinvokes
    cases hinvokes
  refine advances_of h hs ⟨rfl, rfl⟩ ?_ ?_ ?_ (indices_begin h.indices hw)
    (accepts_snoc h.log (.begins hcount hfresh hfree)) h.owner h.signal
  all_goals simp [hw, note, Serving.left, Serving.finished, Serving.effort]

theorem advances_ends {index : UInt64} (hw : p.serving slot = .invokes p.generation call index) :
    Advances threads call p ((p.note (.ends call.task call.context index slot)).setServing slot
      (.claims p.generation call)) true := by
  refine advances_of h hs ⟨rfl, rfl⟩ ?_ ?_ ?_ (indices_end h.indices hw (free_claims _ _))
    (accepts_snoc h.log (.ends ((h.indices.invoked slot index).mpr hw))) h.owner h.signal
  all_goals simp [hw, note, Serving.left, Serving.finished, Serving.effort]

theorem advances_done (hw : p.serving slot = .leaves p.generation) :
    Advances threads call p ({ p with
      done := p.done + 1
      owner := if p.done + 1 == threads then p.owner.notifyFinished else p.owner }.setServing slot
        (.waits p.generation false)) true := by
  have hless : p.done.toNat < threads.toNat := by
    rw [← h.counts.done]
    exact tally_lt (finished_le_one p.generation) hs (by rw [hw]; rfl)
  have hdone : (p.done + 1).toNat = p.done.toNat + 1 := by
    have hbound := h.counts.bound
    rw [UInt64.toNat_add]
    show (p.done.toNat + 1) % 2 ^ 64 = _
    omega
  have hnot : notified = false := by
    rw [← Bool.not_eq_true, h.signal, ← UInt64.toNat_inj]
    omega
  have howner : (if p.done + 1 == threads then p.owner.notifyFinished else p.owner) =
      .waitsFinished (p.done + 1 == threads) := by
    rw [h.owner, hnot]
    cases hlast : p.done + 1 == threads
    · rfl
    · rfl
  refine advances_of h hs (.inr ⟨rfl, rfl⟩) ?_ ?_ ?_ ?_ h.log howner beq_iff_eq
  · simp [hw, Serving.left]
  · simp [hw, Serving.finished, hdone]
  · simp [hw, Serving.effort]
  · exact indices_free h.indices (hw ▸ free_leaves _) (free_waits _ _) fun _ _ => Iff.rfl

end Serve

theorem serve_advances (h : p.InRun threads call begun running notified) (slot : Nat) :
    Advances threads call p (p.serve threads slot) (p.ready (.serve slot)) := by
  by_cases hs : slot < threads.toNat
  · have hin : ∀ w, p.serving slot = w → w.In p.generation call :=
      fun w hw => hw ▸ h.counts.within slot hs
    cases hw : p.serving slot with
    | waits seen b =>
      simp only [serve, ready, hw]
      rcases hin _ hw with ⟨hg, hb⟩ | ⟨hg, hb⟩
      · rw [look_new h.stopping seen (Ne.symm hg), h.published, hb]
        exact advances_wakes h hs hw hg
      · rw [look_same h.stopping seen hg.symm, setServing_self (hb ▸ hw), hb]
        exact advances_stays h
    | claims seen own =>
      obtain ⟨rfl, rfl⟩ := hin _ hw
      simp only [serve, ready, hw]
      split_ifs with hc
      · exact advances_claims h hs hw hc
      · exact advances_leaves h hs hw hc
    | claimed seen own index =>
      obtain ⟨rfl, rfl⟩ := hin _ hw
      simp only [serve, ready, hw]
      exact advances_invokes h hs hw
    | invokes seen own index =>
      obtain ⟨rfl, rfl⟩ := hin _ hw
      simp only [serve, ready, hw]
      exact advances_ends h hs hw
    | leaves seen =>
      obtain rfl : seen = p.generation := hin _ hw
      simp only [serve, ready, hw]
      rw [look_same]
      · exact advances_done h hs hw
      · exact h.stopping
      · rfl
    | _ => exact (hin _ hw).elim
  · have hw := h.counts.outside slot (Nat.not_lt.mp hs)
    simp only [serve, ready, hw]
    exact advances_stays h

end ThreadPool

end LoadForge.Worker.Executor
