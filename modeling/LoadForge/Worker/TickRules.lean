import LoadForge.Worker.VerifiedRun

namespace LoadForge.Worker

open Verification Verification.Integrity

theorem andThen_of {Post : Turn → Prop} {turn : Turn} {next : Ticker → Turn} (hturn : Post turn)
    (hnext : ∀ t, Post (.goOn t) → Post (next t)) : Post (turn.andThen next) := by
  obtain ⟨t, step⟩ := turn
  rw [Turn.andThen]
  cases step with
  | error e => exact hturn
  | ok step =>
    cases step with
    | kContinue => exact hnext t hturn
    | _ => exact hturn

/-- What has to hold of a property of turns for a tick that starts at `t` to have it. -/
structure TickRules (w : Services) (e : TickWorld) (t : Ticker) (Post : Turn → Prop) : Prop where
  starts : Post (.goOn t)
  beats : ∀ elapsedNs, Post (.goOn (t.beat elapsedNs))
  fails : ∀ t error, Post (.goOn t) → Post ⟨t, .error error⟩
  ends : ∀ t reason, Post (.goOn t) → Post (t.ends reason)
  leaves : ∀ t reason, Post (.goOn t) → Post (t.leave reason)
  handles : ∀ look, e.looked = .ok look → ∀ message ∈ look.messages, ∀ t nowNs, Post (.goOn t) →
    Post (t.handle w message nowNs)
  slices : ∀ look, e.looked = .ok look → look.messages = [] → ∀ elapsedNs nowNs busyRemainingNs,
    Post ((t.beat elapsedNs).slice w nowNs busyRemainingNs e)

theorem handleAll_of {w : Services} {Post : Turn → Prop} (nowNs : Int)
    (messages : List ControlMessage) (t : Ticker) (h : Post (.goOn t))
    (hhandle : ∀ message ∈ messages, ∀ t, Post (.goOn t) → Post (t.handle w message nowNs)) :
    Post (t.handleAll w nowNs messages) := by
  induction messages generalizing t with
  | nil => exact h
  | cons message rest ih =>
    refine andThen_of (hhandle message (by simp) t h) ?_
    intro t' ht'
    exact ih t' ht' fun other hother => hhandle other (by simp [hother])

section

variable {w : Services} {e : TickWorld} {t : Ticker} {Post : Turn → Prop} (h : TickRules w e t Post)
include h

theorem listen_of (elapsedNs nowNs : Int) : Post ((t.beat elapsedNs).listen w nowNs e) := by
  rw [Ticker.listen]
  cases hlook : e.looked with
  | error failure => exact h.fails _ failure (h.beats elapsedNs)
  | ok look =>
    by_cases hnone : look.messages = []
    · simp only [hnone, Ticker.handleAll, Turn.andThen, Turn.goOn]
      cases look.lost with
      | some reason => exact h.leaves _ reason (h.beats elapsedNs)
      | none =>
        simp only
        split_ifs
        · exact h.beats elapsedNs
        · exact h.slices look hlook hnone _ _ _
    · refine andThen_of (handleAll_of nowNs look.messages _ (h.beats elapsedNs)
        fun message hmessage t => h.handles look hlook message hmessage t nowNs) ?_
      intro t' ht'
      cases look.lost with
      | some reason => exact h.leaves t' reason ht'
      | none =>
        simp only
        rw [if_pos (.inl hnone)]
        exact ht'

/-- The rule of a tick: what its parts keep, it keeps. -/
theorem once_of : Post (t.once w e) := by
  rw [Ticker.once]
  cases e.now with
  | error detail => exact h.fails t _ h.starts
  | ok times =>
    cases e.published with
    | error detail => exact h.fails _ _ (h.beats times.2)
    | ok _ =>
      simp only
      split_ifs
      · exact h.ends _ _ (h.beats times.2)
      · cases e.gone with
        | some reason => exact h.leaves _ reason (h.beats times.2)
        | none => exact listen_of h times.2 times.1

end

section Taken

variable {w : Services} (hw : ∀ frame, w.delivery frame = .taken) (t : Ticker)

def Ticker.told (t : Ticker) (frames : List Sent) : Ticker :=
  { t with frames := t.frames + frames.length, sent := t.sent ++ frames }

include hw

theorem send_taken (frame : Sent) : t.send w frame = .goOn (t.note frame true) := by
  rw [Ticker.send, hw]

theorem sendAll_taken (frames : List Sent) : t.sendAll w frames = .goOn (t.told frames) := by
  induction frames generalizing t with
  | nil => simp [Ticker.sendAll, Ticker.told]
  | cons frame rest ih =>
    have hframes : t.frames + 1 + rest.length = t.frames + (frame :: rest).length := by
      simp
      omega
    rw [Ticker.sendAll, send_taken hw]
    show (t.note frame true).sendAll w rest = _
    rw [ih]
    simp [Ticker.told, Ticker.note, hframes]

theorem closeRunner_taken (h : t.runner.finished = false) (runOver : Bool) :
    t.closeRunner w runOver =
      .goOn ((t.closed { t.runner with finished := true } t.runner.nextIndex).told
        ((keepTrueStatements
          { records := zeroStatements t.runner, nextIndex := t.runner.nextIndex } t.whole
          runOver).records.map .record ++ [.tally t.whole])) := by
  rw [Ticker.closeRunner, finish, h]
  exact sendAll_taken hw _ _

end Taken

end LoadForge.Worker
