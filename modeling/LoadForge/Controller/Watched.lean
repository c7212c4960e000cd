import LoadForge.Controller.ControlLink
import LoadForge.Worker.Channels

namespace LoadForge.Controller

open Framework
open Ipc (Channel Drained FrameError)
open Cli (SyscallError)

/-- A worker, and the channel its records come by. -/
structure Watched where
  worker : Tracked
  channel : Channel := {}

/-- One drain of a channel that is open. A read that fails is the controller's error. -/
def Watched.drain (shortest : UInt64 → String) (answers : Nat → Except SyscallError (List UInt8))
    (s : Watched) : Watched :=
  if s.worker.channelOpen then
    let (answer, channel) := s.channel.call answers
    match answer with
    | .error _ => { s with channel }
    | .ok d => ⟨Controller.drain shortest s.worker d, channel⟩
  else s

/-- All that was read of a channel, as if one drain had told it. -/
def told (c : Channel) (ending : Option FrameError) (left : List UInt8) (ended : Bool) :
    Drained where
  records := c.records
  fault :=
    if !ended then ending
    else if left = [] then none
    else some ⟨.kTruncated, Ipc.foundExpected "bytes left" left.length 0⟩
  endOfStream := ended

/-- A worker is as its first state is after the records, the fault and the end that were read. -/
def Watched.Follows (shortest : UInt64 → String) (w : Tracked) (s : Watched) : Prop :=
  ∃ ending left ended, s.channel.Kept ending left ∧ (ended = true ↔ [] ∈ s.channel.chunks) ∧
    s.worker = run (Tracked.after shortest) w (drainEvents (told s.channel ending left ended))

section

variable (shortest : UInt64 → String) (w : Tracked)

theorem run_events_open (d : Drained)
    (ho : (run (Tracked.after shortest) w (drainEvents d)).channelOpen = true) :
    d.fault = none ∧ d.endOfStream = false := by
  obtain ⟨records, fault, ended⟩ := d
  simp only [drainEvents, run_append] at ho
  generalize run (Tracked.after shortest) w (records.map .frame) = v at ho
  cases hv : v.channelOpen <;> cases fault <;> cases ended <;>
    simp_all [Tracked.after, Tracked.whenOpen, takeFault, closeChannel]

variable (answers : Nat → Except SyscallError (List UInt8)) {s : Watched}

theorem Watched.Follows.drain (h : s.Follows shortest w) :
    (s.drain shortest answers).Follows shortest w := by
  unfold Watched.drain
  split_ifs with hopen
  · obtain ⟨ending, left, ended, hkept, hended, hworker⟩ := h
    have hcall := hkept.call answers
    generalize s.channel.call answers = r at hcall ⊢
    obtain ⟨answer, channel⟩ := r
    obtain ⟨ending', left', hkept', hanswered⟩ := hcall
    dsimp only at hkept' hanswered ⊢
    cases answer with
    | error e =>
      obtain ⟨hchunks, hrecords⟩ := hanswered
      have hreads := hkept'.reads
      rw [hchunks, hrecords] at hreads
      obtain ⟨-, rfl, rfl⟩ := hreads.unique hkept.reads
      refine ⟨ending', left', ended, hkept', ?_, ?_⟩
      · rwa [hchunks]
      · simp only [told, hrecords]
        exact hworker
    | ok d =>
      obtain ⟨hrecords, htold⟩ := hanswered
      have hended' : d.endOfStream = true ↔ [] ∈ channel.chunks := by simp [htold.endOfStream]
      refine ⟨ending', left', d.endOfStream, hkept', hended', ?_⟩
      dsimp only
      rw [drain_eq_run shortest s.worker hopen, hworker, ← run_append]
      rw [hworker] at hopen
      obtain ⟨hfault, hend⟩ := run_events_open shortest w _ hopen
      have hnot : [] ∉ s.channel.chunks := by
        rw [← hended]
        exact Bool.eq_false_iff.mp hend
      have hsays : d.fault = (told channel ending' left' d.endOfStream).fault := by
        cases hd : d.endOfStream with
        | false => exact htold.fault (by simp [← hended', hd])
        | true => exact htold.truncated (hended'.mp hd) hnot
      congr 1
      unfold drainEvents
      rw [hfault, hend]
      simp [told, hrecords, hsays]
  · exact h

theorem follows_drains (n : Nat) :
    ((Watched.drain shortest answers)^[n] ⟨w, {}⟩).Follows shortest w := by
  apply Function.Iterate.rec (Watched.Follows shortest w)
  · exact ⟨none, [], false, ⟨.stop rfl, rfl, fun _ => rfl, fun _ => rfl, fun _ => rfl⟩, by simp,
      rfl⟩
  · exact fun s hs => hs.drain shortest w answers

end

/-- What the controller knows of a worker depends on the bytes it has read and on whether it has
met their end, and not on how the reads cut them. -/
theorem drain_account_of_bytes (shortest : UInt64 → String) (w : Tracked) :
    let watch := fun r : (Nat → Except SyscallError (List UInt8)) × Nat =>
      (Watched.drain shortest r.1)^[r.2] ⟨w, {}⟩
    Function.FactorsThrough (fun r => (watch r).worker)
      (fun r => ((watch r).channel.chunks.flatten, [] ∈ (watch r).channel.chunks)) := by
  intro watch r r' hread
  obtain ⟨hbytes, hend⟩ := Prod.mk.inj hread
  obtain ⟨ending, left, ended, hkept, hended, hworker⟩ := follows_drains shortest w r.1 r.2
  obtain ⟨ending', left', ended', hkept', hended', hworker'⟩ := follows_drains shortest w r'.1 r'.2
  have hreads := hkept.reads
  rw [hbytes] at hreads
  obtain ⟨hrecords, rfl, rfl⟩ := hreads.unique hkept'.reads
  have hsame : ended = ended' := Bool.eq_iff_iff.mpr (hended.trans (hend ▸ hended'.symm))
  simp only [watch, hworker, hworker', told, hrecords, hsame]

end LoadForge.Controller
