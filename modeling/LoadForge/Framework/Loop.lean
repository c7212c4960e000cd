import Mathlib.Data.List.Nodup
import Mathlib.Data.List.Range
import Mathlib.Tactic.Ring

namespace LoadForge.Framework

open List

variable {σ α : Type}

theorem foldlM_spec {f : σ → α → Option σ} (Inv : List α → σ → Prop) {xs : List α} {s : σ}
    (hstep : ∀ front x back s, xs = front ++ x :: back → Inv front s →
      ∃ s', f s x = some s' ∧ Inv (front ++ [x]) s')
    (hs : Inv [] s) : ∃ s', xs.foldlM f s = some s' ∧ Inv xs s' := by
  have hrest : ∀ back front s, xs = front ++ back → Inv front s →
      ∃ s', back.foldlM f s = some s' ∧ Inv xs s' := by
    intro back
    induction back with
    | nil =>
      intro front s hxs hinv
      rw [append_nil] at hxs
      exact ⟨s, rfl, hxs ▸ hinv⟩
    | cons x back ih =>
      intro front s hxs hinv
      obtain ⟨s', hs', hinv'⟩ := hstep front x back s hxs hinv
      obtain ⟨s'', hs'', hend⟩ := ih (front ++ [x]) s' (by rw [hxs, append_cons]) hinv'
      refine ⟨s'', ?_, hend⟩
      rw [foldlM_cons, hs']
      exact hs''
  exact hrest xs [] s rfl hs

theorem foldlM_flatMap {β : Type} (f : σ → β → Option σ) (g : α → List β) (xs : List α) (s : σ) :
    (xs.flatMap g).foldlM f s = xs.foldlM (fun s x => (g x).foldlM f s) s := by
  induction xs generalizing s with
  | nil => rfl
  | cons x xs ih =>
    rw [flatMap_cons, foldlM_append, foldlM_cons]
    congr 1
    funext s'
    exact ih s'

theorem foldlM_range'_spec {f : σ → Nat → Option σ} (Inv : Nat → σ → Prop) {first n : Nat} {s : σ}
    (hstep : ∀ k < n, ∀ s, Inv k s → ∃ s', f s (first + k) = some s' ∧ Inv (k + 1) s')
    (hs : Inv 0 s) : ∃ s', (range' first n).foldlM f s = some s' ∧ Inv n s' := by
  induction n generalizing first s Inv with
  | zero => exact ⟨s, rfl, hs⟩
  | succ n ih =>
    obtain ⟨s', hs', hinv⟩ := hstep 0 (Nat.succ_pos n) s hs
    have hlater : ∀ k < n, ∀ s, Inv (k + 1) s →
        ∃ s', f s (first + 1 + k) = some s' ∧ Inv (k + 1 + 1) s' := by
      intro k hk s hinv
      rw [Nat.add_assoc, Nat.add_comm 1 k]
      exact hstep (k + 1) (by omega) s hinv
    obtain ⟨s'', hs'', hend⟩ := ih (fun k => Inv (k + 1)) hlater hinv
    refine ⟨s'', ?_, hend⟩
    rw [range'_succ, foldlM_cons]
    rw [Nat.add_zero] at hs'
    rw [hs']
    exact hs''

theorem foldlM_range_spec {f : σ → Nat → Option σ} (Inv : Nat → σ → Prop) {n : Nat} {s : σ}
    (hstep : ∀ k < n, ∀ s, Inv k s → ∃ s', f s k = some s' ∧ Inv (k + 1) s') (hs : Inv 0 s) :
    ∃ s', (range n).foldlM f s = some s' ∧ Inv n s' := by
  rw [range_eq_range']
  apply foldlM_range'_spec Inv _ hs
  intro k hk s hinv
  rw [Nat.zero_add]
  exact hstep k hk s hinv

theorem result_mono {run : Option α} {P Q : α → Prop} (h : ∃ a, run = some a ∧ P a)
    (hPQ : ∀ a, P a → Q a) : ∃ a, run = some a ∧ Q a := by
  obtain ⟨a, hrun, ha⟩ := h
  exact ⟨a, hrun, hPQ a ha⟩

theorem result_bind {β : Type*} {run : Option α} {f : α → Option β} {P : β → Prop}
    (h : ∃ a, run = some a ∧ ∃ b, f a = some b ∧ P b) : ∃ b, run.bind f = some b ∧ P b := by
  obtain ⟨a, rfl, ha⟩ := h
  exact ha

/-- A loop of which only what follows from its invariant at the end is of interest. -/
theorem foldlM_range_result {f : σ → Nat → Option σ} (Inv : Nat → σ → Prop) {post : σ → Prop}
    {n : Nat} {s : σ} (hstep : ∀ k < n, ∀ s, Inv k s → ∃ s', f s k = some s' ∧ Inv (k + 1) s')
    (hs : Inv 0 s) (hpost : ∀ s, Inv n s → post s) :
    ∃ s', (range n).foldlM f s = some s' ∧ post s' := by
  exact result_mono (foldlM_range_spec Inv hstep hs) hpost

/-- An order in which the tasks of a run are carried out: each of them once. -/
def IsOrder (n : Nat) (order : List Nat) : Prop := order.Perm (List.range n)

theorem IsOrder.mem_iff {n : Nat} {order : List Nat} (h : IsOrder n order) (task : Nat) :
    task ∈ order ↔ task < n := by
  rw [Perm.mem_iff h, mem_range]

/-- A loop in which each round adds one thing to what it has made. -/
theorem foldlM_collects {β : Type} {f : σ → α → Option σ} (made : σ → List β) (R : α → β → Prop)
    (hstep : ∀ s x s', f s x = some s' → ∃ b, made s' = made s ++ [b] ∧ R x b) {xs : List α}
    {s s' : σ} (h : xs.foldlM f s = some s') :
    ∃ bs, made s' = made s ++ bs ∧ Forall₂ R xs bs := by
  induction xs generalizing s with
  | nil =>
    cases h
    exact ⟨[], (append_nil _).symm, Forall₂.nil⟩
  | cons x xs ih =>
    obtain ⟨next, hnext, hrest⟩ := Option.bind_eq_some_iff.mp h
    obtain ⟨b, hb, hR⟩ := hstep s x next hnext
    obtain ⟨bs, hbs, hRs⟩ := ih hrest
    exact ⟨b :: bs, by rw [hbs, hb, append_assoc]; rfl, Forall₂.cons hR hRs⟩

/-- Tasks carried out in any order, with what holds once some of them are done. -/
theorem foldlM_order_spec {f : σ → Nat → Option σ} (Inv : (Nat → Prop) → σ → Prop) {n : Nat}
    {order : List Nat} (h : IsOrder n order) {s : σ}
    (hstep : ∀ done task s, task < n → ¬done task → Inv done s →
      ∃ s', f s task = some s' ∧ Inv (fun other => done other ∨ other = task) s')
    (hs : Inv (fun _ => False) s) :
    ∃ s', order.foldlM f s = some s' ∧ Inv (fun task => task < n) s' := by
  have hnodup : order.Nodup := h.nodup_iff.mpr nodup_range
  have hend : ∃ s', order.foldlM f s = some s' ∧ Inv (fun task => task ∈ order) s' := by
    apply foldlM_spec (fun front s => Inv (fun task => task ∈ front) s)
    · intro front task back s hsplit hinv
      have hfresh : task ∉ front := by
        rw [hsplit] at hnodup
        intro hmem
        exact (nodup_append.mp hnodup).2.2 task hmem task (by simp) rfl
      have hlt : task < n := by
        rw [← h.mem_iff, hsplit]
        exact mem_append_right _ (by simp)
      obtain ⟨s', hs', hinv'⟩ := hstep _ task s hlt hfresh hinv
      refine ⟨s', hs', ?_⟩
      simpa only [mem_append, mem_singleton] using hinv'
    · simpa only [not_mem_nil] using hs
  simpa only [h.mem_iff] using hend

def foldUntil {ε : Type} (f : σ → α → Option (Except ε σ)) : List α → σ → Option (Except ε σ)
  | [], s => some (.ok s)
  | x :: xs, s => (f s x).bind fun
    | .error e => some (.error e)
    | .ok s' => foldUntil f xs s'

/-- A loop that goes on as long as all is good, and returns early as soon as something is not. -/
theorem foldUntil_range'_spec {ε : Type} {f : σ → Nat → Option (Except ε σ)} (Good : Nat → Prop)
    (Bad : ε → Prop) (Inv : Nat → σ → Prop) {first n : Nat} {s : σ}
    (hgood : ∀ k < n, ∀ s, Inv k s → Good k →
      ∃ s', f s (first + k) = some (.ok s') ∧ Inv (k + 1) s')
    (hbad : ∀ k < n, ∀ s, Inv k s → ¬Good k → ∃ e, f s (first + k) = some (.error e) ∧ Bad e)
    (hs : Inv 0 s) :
    (∃ s', foldUntil f (range' first n) s = some (.ok s') ∧ ∀ k < n, Good k) ∨
      ∃ e, foldUntil f (range' first n) s = some (.error e) ∧ Bad e ∧ ¬∀ k < n, Good k := by
  induction n generalizing first s Inv Good with
  | zero => exact .inl ⟨s, rfl, fun k hk => absurd hk (Nat.not_lt_zero k)⟩
  | succ n ih =>
    rw [range'_succ]
    by_cases hfirst : Good 0
    · obtain ⟨s', hs', hinv⟩ := hgood 0 (Nat.succ_pos n) s hs hfirst
      rw [Nat.add_zero] at hs'
      have hrest := ih (fun k => Good (k + 1)) (fun k => Inv (k + 1)) (s := s')
        (fun k hk s hinv hk' => by
          rw [Nat.add_assoc, Nat.add_comm 1 k]
          exact hgood (k + 1) (by omega) s hinv hk')
        (fun k hk s hinv hk' => by
          rw [Nat.add_assoc, Nat.add_comm 1 k]
          exact hbad (k + 1) (by omega) s hinv hk') hinv
      simp only [foldUntil, hs', Option.bind_some]
      rcases hrest with ⟨s'', hs'', hall⟩ | ⟨e, he, hbad', hnot⟩
      · refine .inl ⟨s'', hs'', ?_⟩
        intro k hk
        cases k with
        | zero => exact hfirst
        | succ k => exact hall k (by omega)
      · refine .inr ⟨e, he, hbad', ?_⟩
        intro hall
        exact hnot fun k hk => hall (k + 1) (by omega)
    · obtain ⟨e, he, hbad'⟩ := hbad 0 (Nat.succ_pos n) s hs hfirst
      rw [Nat.add_zero] at he
      refine .inr ⟨e, ?_, hbad', fun hall => hfirst (hall 0 (Nat.succ_pos n))⟩
      simp only [foldUntil, he, Option.bind_some]

end LoadForge.Framework
