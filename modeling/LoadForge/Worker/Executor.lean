import Mathlib.Data.List.Induction
import Mathlib.Data.List.Nodup
import Mathlib.Data.List.Perm.Basic
import Mathlib.Tactic.Ring

namespace LoadForge.Worker.Executor

open List

/-- The arguments of a run. Tasks and contexts are pointers, of which nothing is read. -/
structure Call (T C : Type) where
  count : UInt64
  task : T
  context : C

/-- What can be seen of an executor: a run is called or returns, a task is invoked or returns. -/
inductive Entry (T C : Type)
  | calls (call : Call T C)
  | begins (task : T) (context : C) (index : UInt64) (slot : Nat)
  | ends (task : T) (context : C) (index : UInt64) (slot : Nat)
  | returns

variable {T C : Type}

/-- The run going on, the indices begun, and the invocations that have not returned. -/
inductive Ledger (T C : Type)
  | between
  | during (call : Call T C) (begun : List UInt64) (running : List (Nat × UInt64))

inductive Ledger.Step : Ledger T C → Entry T C → Ledger T C → Prop
  | calls (call : Call T C) : Step .between (.calls call) (.during call [] [])
  | begins {call : Call T C} {begun : List UInt64} {running : List (Nat × UInt64)} {index : UInt64}
      {slot : Nat} (below : index < call.count) (fresh : index ∉ begun)
      (free : ∀ other, (slot, other) ∉ running) :
      Step (.during call begun running) (.begins call.task call.context index slot)
        (.during call (begun ++ [index]) ((slot, index) :: running))
  | ends {call : Call T C} {begun : List UInt64} {running : List (Nat × UInt64)} {index : UInt64}
      {slot : Nat} (runs : (slot, index) ∈ running) :
      Step (.during call begun running) (.ends call.task call.context index slot)
        (.during call begun (running.erase (slot, index)))
  | returns {call : Call T C} {begun : List UInt64} (all : ∀ index < call.count, index ∈ begun) :
      Step (.during call begun []) .returns .between

inductive Ledger.Accepts : Ledger T C → List (Entry T C) → Ledger T C → Prop
  | nil (ledger : Ledger T C) : Accepts ledger [] ledger
  | cons {first second third : Ledger T C} {entry : Entry T C} {log : List (Entry T C)}
      (step : first.Step entry second) (rest : Accepts second log third) :
      Accepts first (entry :: log) third

theorem accepts_append {first third : Ledger T C} {log more : List (Entry T C)} :
    first.Accepts (log ++ more) third ↔
      ∃ second, first.Accepts log second ∧ Ledger.Accepts second more third := by
  constructor
  · intro h
    induction log generalizing first with
    | nil => exact ⟨first, .nil first, h⟩
    | cons entry log ih =>
      cases h with
      | cons step rest =>
        obtain ⟨second, hlog, hmore⟩ := ih rest
        exact ⟨second, .cons step hlog, hmore⟩
  · intro h
    obtain ⟨second, hlog, hmore⟩ := h
    induction hlog with
    | nil ledger => exact hmore
    | cons step rest ih => exact .cons step (ih hmore)

theorem accepts_snoc {first second third : Ledger T C} {log : List (Entry T C)} {entry : Entry T C}
    (h : first.Accepts log second) (hs : second.Step entry third) :
    first.Accepts (log ++ [entry]) third :=
  accepts_append.mpr ⟨second, h, .cons hs (.nil third)⟩

/-- The entries of a run besides its call and its return. -/
def Entry.isInvocation : Entry T C → Prop
  | .begins .. | .ends .. => True
  | _ => False

def Entry.Of (call : Call T C) : Entry T C → Prop
  | .begins task context _ _ | .ends task context _ _ => task = call.task ∧ context = call.context
  | _ => True

def Entry.begun? : Entry T C → Option UInt64
  | .begins _ _ index _ => some index
  | _ => none

def Entry.ended? : Entry T C → Option UInt64
  | .ends _ _ index _ => some index
  | _ => none

structure Inside (call : Call T C) (log : List (Entry T C)) (begun : List UInt64)
    (running : List (Nat × UInt64)) : Prop where
  indices : log.filterMap Entry.begun? = begun
  ended : (log.filterMap Entry.ended? ++ running.map Prod.snd).Perm begun
  own : ∀ entry ∈ log, entry.Of call
  once : begun.Nodup
  below : ∀ index ∈ begun, index < call.count

variable {running : List (Nat × UInt64)}

section

variable {call : Call T C} {log : List (Entry T C)} {begun : List UInt64}
  (h : Inside call log begun running)
include h

theorem inside_snoc {entry : Entry T C}
    (hi : entry.isInvocation) {ledger : Ledger T C}
    (hs : (Ledger.during call begun running).Step entry ledger) :
    ∃ begun' running', ledger = .during call begun' running' ∧
      Inside call (log ++ [entry]) begun' running' := by
  cases hs with
  | returns all => cases hi
  | @begins _ _ _ index slot below fresh free =>
    refine ⟨_, _, rfl, ?_, ?_, ?_, ?_, ?_⟩
    · rw [filterMap_append, h.indices]
      rfl
    · rw [filterMap_append]
      have hshift : (log.filterMap Entry.ended? ++ index :: running.map Prod.snd).Perm
          (index :: begun) := perm_middle.trans (h.ended.cons index)
      simp only [filterMap_cons, Entry.ended?, filterMap_nil, append_nil, map_cons]
      exact hshift.trans (perm_append_singleton index begun).symm
    · exact forall_mem_append.mpr ⟨h.own, forall_mem_singleton.mpr ⟨rfl, rfl⟩⟩
    · exact nodup_append.mpr ⟨h.once, nodup_singleton index, fun a ha b hb =>
        fun heq => fresh (mem_singleton.mp hb ▸ heq ▸ ha)⟩
    · exact forall_mem_append.mpr ⟨h.below, forall_mem_singleton.mpr below⟩
  | @ends _ _ _ index slot runs =>
    refine ⟨_, _, rfl, ?_, ?_, ?_, h.once, h.below⟩
    · rw [filterMap_append, h.indices]
      exact append_nil _
    · rw [filterMap_append]
      have hsame : (running.map Prod.snd).Perm (index :: (running.erase (slot, index)).map Prod.snd) :=
        (perm_cons_erase runs).map Prod.snd
      have hended := (Perm.append_left (log.filterMap Entry.ended?) hsame).symm.trans h.ended
      simp only [filterMap_cons, Entry.ended?, filterMap_nil]
      rwa [append_assoc, singleton_append]
    · exact forall_mem_append.mpr ⟨h.own, forall_mem_singleton.mpr ⟨rfl, rfl⟩⟩

theorem inside_accepts {mid : List (Entry T C)}
    (hi : ∀ entry ∈ mid, entry.isInvocation) {ledger : Ledger T C}
    (ha : (Ledger.during call begun running).Accepts mid ledger) :
    ∃ begun' running', ledger = .during call begun' running' ∧
      Inside call (log ++ mid) begun' running' := by
  induction mid generalizing log begun running with
  | nil =>
    cases ha
    rw [append_nil]
    exact ⟨begun, running, rfl, h⟩
  | cons entry mid ih =>
    cases ha with
    | cons step rest =>
      obtain ⟨begun', running', heq, hinside⟩ := inside_snoc h (hi entry (by simp)) step
      rw [heq] at rest
      obtain ⟨begun'', running'', hend, hlast⟩ :=
        ih hinside (fun other hmem => hi other (by simp [hmem])) rest
      rw [append_assoc, singleton_append] at hlast
      exact ⟨begun'', running'', hend, hlast⟩

end

theorem during_of_accepts {log : List (Entry T C)} {call : Call T C} {begun : List UInt64}
    (h : Ledger.Accepts .between log (.during call begun running)) :
    ∃ front mid, log = front ++ .calls call :: mid ∧ ∀ entry ∈ mid, entry.isInvocation := by
  induction log using reverseRecOn generalizing begun running with
  | nil => cases h
  | append_singleton log entry ih =>
    obtain ⟨second, hlog, hlast⟩ := accepts_append.mp h
    cases hlast with
    | cons step rest =>
      cases rest
      cases step with
      | calls =>
        refine ⟨log, [], rfl, ?_⟩
        intro entry hmem
        cases hmem
      | _ =>
        obtain ⟨front, mid, hsplit, hmid⟩ := ih hlog
        refine ⟨front, mid ++ [_], by rw [hsplit, append_assoc, cons_append], ?_⟩
        exact forall_mem_append.mpr ⟨hmid, forall_mem_singleton.mpr trivial⟩

theorem runs_until_ended {ledger : Ledger T C} {call : Call T C} {begun : List UInt64}
    {mid : List (Entry T C)} {slot : Nat} {index : UInt64}
    (h : (Ledger.during call begun running).Accepts mid ledger) (hr : (slot, index) ∈ running)
    (hm : Entry.ends call.task call.context index slot ∉ mid) :
    ∃ begun' running', ledger = .during call begun' running' ∧ (slot, index) ∈ running' := by
  induction mid generalizing begun running with
  | nil =>
    cases h
    exact ⟨begun, running, rfl, hr⟩
  | cons entry mid ih =>
    have hlater : Entry.ends call.task call.context index slot ∉ mid :=
      fun hmem => hm (by simp [hmem])
    cases h with
    | cons step rest =>
      cases step with
      | returns all => cases hr
      | begins below fresh free => exact ih rest (by simp [hr]) hlater
      | @ends _ _ _ other place runs =>
        refine ih rest ?_ hlater
        refine (mem_erase_of_ne ?_).mpr hr
        intro heq
        cases heq
        exact hm (by simp)

structure Keeps (log : List (Entry T C)) : Prop where
  /-- A run that returned invoked its own task once for every index, and all of it had returned. -/
  exactlyOnce : ∀ front call mid back, log = front ++ .calls call :: (mid ++ .returns :: back) →
    (∀ entry ∈ mid, entry.isInvocation) →
    (mid.filterMap Entry.begun?).Nodup ∧ (∀ index, index ∈ mid.filterMap Entry.begun? ↔
        index < call.count) ∧
      (mid.filterMap Entry.ended?).Perm (mid.filterMap Entry.begun?) ∧
      ∀ entry ∈ mid, entry.Of call
  /-- A run that has not returned has invoked its own task, for each index at most once. -/
  atMostOnce : ∀ front call mid back, log = front ++ .calls call :: (mid ++ back) →
    (∀ entry ∈ mid, entry.isInvocation) →
    (mid.filterMap Entry.begun?).Nodup ∧ (∀ index ∈ mid.filterMap Entry.begun?,
        index < call.count) ∧
      (mid.filterMap Entry.ended?).Subperm (mid.filterMap Entry.begun?) ∧
      ∀ entry ∈ mid, entry.Of call
  /-- No task is invoked, and none returns, outside of a run. -/
  nothingOutside : ∀ front entry back, log = front ++ entry :: back → entry.isInvocation →
    ∃ before call mid, front = before ++ .calls call :: mid ∧ ∀ entry ∈ mid, entry.isInvocation
  /-- A slot is used again only after the task it was used for has returned. -/
  slots : ∀ front task context index slot mid task' context' index' back,
    log = front ++ .begins task context index slot ::
        (mid ++ .begins task' context' index' slot :: back) →
      Entry.ends task context index slot ∈ mid

theorem keeps_of_accepts {log : List (Entry T C)} {ledger : Ledger T C}
    (h : Ledger.Accepts .between log ledger) : Keeps log := by
  have hempty : ∀ call : Call T C, Inside call [] [] [] := by
    intro call
    refine ⟨rfl, Perm.refl _, ?_, nodup_nil, ?_⟩
    · intro entry hmem
      cases hmem
    · intro index hmem
      cases hmem
  have hinside : ∀ front call mid back, log = front ++ .calls call :: (mid ++ back) →
      (∀ entry ∈ mid, entry.isInvocation) → ∃ begun running, Inside call mid begun running ∧
        (Ledger.during call begun running).Accepts back ledger := by
    intro front call mid back hlog hmid
    rw [hlog] at h
    obtain ⟨first, _, hrest⟩ := accepts_append.mp h
    cases hrest with
    | cons step rest =>
      obtain ⟨second, hsecond, hback⟩ := accepts_append.mp rest
      cases step with
      | calls =>
        obtain ⟨begun, running, heq, hin⟩ := inside_accepts (hempty call) hmid hsecond
        exact ⟨begun, running, hin, heq ▸ hback⟩
  refine ⟨?_, ?_, ?_, ?_⟩
  · intro front call mid back hlog hmid
    obtain ⟨begun, running, hin, hback⟩ := hinside front call mid _ hlog hmid
    cases hback with
    | cons step rest =>
      cases step with
      | returns all =>
        have hended := hin.ended
        rw [map_nil, append_nil] at hended
        rw [hin.indices]
        exact ⟨hin.once, fun index => ⟨hin.below index, all index⟩, hended, hin.own⟩
  · intro front call mid back hlog hmid
    obtain ⟨begun, running, hin, _⟩ := hinside front call mid back hlog hmid
    rw [hin.indices]
    refine ⟨hin.once, hin.below, ?_, hin.own⟩
    exact (sublist_append_left _ _).subperm.trans hin.ended.subperm
  · intro front entry back hlog hentry
    rw [hlog] at h
    obtain ⟨first, hfront, hrest⟩ := accepts_append.mp h
    cases hrest with
    | cons step rest =>
      cases step with
      | calls => cases hentry
      | returns all => cases hentry
      | _ =>
        obtain ⟨before, mid, hsplit, hmid⟩ := during_of_accepts hfront
        exact ⟨before, _, mid, hsplit, hmid⟩
  · intro front task context index slot mid task' context' index' back hlog
    rw [hlog] at h
    obtain ⟨first, _, hrest⟩ := accepts_append.mp h
    cases hrest with
    | cons step rest =>
      obtain ⟨second, hmid, hback⟩ := accepts_append.mp rest
      cases step with
      | begins below fresh free =>
        by_contra hnot
        obtain ⟨begun', running', heq, hmem⟩ := runs_until_ended hmid (by simp) hnot
        rw [heq] at hback
        cases hback with
        | cons step' rest' =>
          cases step' with
          | begins below' fresh' free' => exact free' index hmem

end LoadForge.Worker.Executor
