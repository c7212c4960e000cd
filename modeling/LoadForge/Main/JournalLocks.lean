import LoadForge.Journal.CutLaw
import LoadForge.Main.JournalRig

namespace LoadForge.JournalRig

open Framework Journal List World

def lockedFiles : Stage → List Nat
  | .locked file | .reading file _ _ | .removing file | .keeping file _ | .moving file _
  | .aside file | .reopened file _ | .relocking file _ | .starting file | .checking file _ _
  | .live file => [file]
  | .dropping file fresh => [file, fresh]
  | .leaving files _ => files
  | _ => []

/-- The file a process takes for the one at the path, from its first lock until it has set it
aside. -/
def claimed : Stage → Option Nat
  | .locked file | .reading file _ _ | .removing file | .keeping file _ | .moving file _ =>
    some file
  | _ => none

/-- The file that is a process's journal: its own, locked, up to the end of the run. -/
def journalOf : Stage → Option Nat
  | .starting file | .checking file _ _ | .live file => some file
  | _ => none

/-- What a call can do to the disk, with what the process has and claims before and after it. -/
inductive Effect (disk : Disk) (p : Nat) (s : Stage) (call : Call) : Disk → Stage → Prop
  | quiet (s' : Stage) (hl : lockedFiles s' = lockedFiles s)
      (hc : claimed s' = none ∨ claimed s' = claimed s) : Effect disk p s call disk s'
  | opens (s' : Stage) (hl : lockedFiles s' = lockedFiles s) (hc : claimed s' = none) :
      Effect disk p s call (disk.openCreate .journal).1 s'
  | locks (file : Nat) (s' : Stage) (hfree : disk.locks file = none)
      (hl : lockedFiles s' = lockedFiles s ++ [file])
      (hc : claimed s' = none ∨ s = .unlocked file ∧ call = .done ∧ claimed s' = some file) :
      Effect disk p s call (disk.setLock file (some p)) s'
  | releases (file : Nat) (s' : Stage) (hl : lockedFiles s = file :: lockedFiles s')
      (hc : claimed s' = none) : Effect disk p s call (disk.release file p) s'
  | unlinks (file : Nat) (s' : Stage) (hl : lockedFiles s' = lockedFiles s)
      (hs : claimed s = some file) (hin : file ∈ lockedFiles s) (hc : claimed s' = none) :
      Effect disk p s call (disk.unlink .journal) s'
  | renames (file number : Nat) (s' : Stage) (hl : lockedFiles s' = lockedFiles s)
      (hs : claimed s = some file) (hin : file ∈ lockedFiles s) (hc : claimed s' = none) :
      Effect disk p s call (disk.rename .journal (.kept number)) s'
  | writes (file : Nat) (bytes : List UInt8) (hs : s = .live file) :
      Effect disk p s call (disk.append file bytes) s

theorem judged_effect (path : String) (disk : Disk) (p file source : Nat) (whole : List UInt8)
    (call : Call) :
    Effect disk p (.reading file source whole) call disk (judged path file whole) := by
  simp only [judged]
  split_ifs
  · exact .quiet _ rfl (.inl rfl)
  · exact .quiet _ rfl (.inl rfl)
  · exact .quiet _ rfl (.inr rfl)
  · exact .quiet _ rfl (.inr rfl)

theorem move_effect (path : String) (disk : Disk) (p : Nat) (s : Stage) (call : Call) :
    Effect disk p s call (move path disk p s call).1 (move path disk p s call).2 := by
  have hstay : Effect disk p s call disk s := .quiet s rfl (.inr rfl)
  cases s with
  | idle =>
    cases call with
    | done => exact .opens _ rfl rfl
    | failed text => exact .quiet _ rfl (.inl rfl)
    | _ => exact hstay
  | opened file =>
    cases call with
    | done => exact .quiet _ rfl (.inl rfl)
    | failed text => exact .quiet _ rfl (.inl rfl)
    | _ => exact hstay
  | unlocked file =>
    cases call with
    | done =>
      simp only [move]
      cases hlock : disk.lock file p with
      | none => exact .quiet _ rfl (.inl rfl)
      | some disk' =>
        obtain ⟨hfree, rfl⟩ := disk.lock_eq_some disk' file p hlock
        exact .locks file _ hfree rfl (.inr ⟨rfl, rfl, rfl⟩)
    | failed text => exact .quiet _ rfl (.inl rfl)
    | _ => exact hstay
  | locked file =>
    cases call with
    | done =>
      simp only [move]
      cases disk.names .journal with
      | none => exact .quiet _ rfl (.inl rfl)
      | some source => exact .quiet _ rfl (.inr rfl)
    | failed text => exact .quiet _ rfl (.inl rfl)
    | _ => exact hstay
  | reading file source whole =>
    cases call with
    | got more =>
      simp only [move]
      split_ifs
      · exact judged_effect path disk p file source whole _
      · exact .quiet _ rfl (.inr rfl)
    | failed text => exact .quiet _ rfl (.inl rfl)
    | _ => exact hstay
  | removing file =>
    cases call with
    | done => exact .unlinks file _ rfl rfl mem_cons_self rfl
    | failed text => exact .quiet _ rfl (.inl rfl)
    | _ => exact hstay
  | keeping file number =>
    cases call with
    | done =>
      simp only [move, nextName]
      split_ifs
      · exact .quiet _ rfl (.inl rfl)
      · exact .quiet _ rfl (.inr rfl)
      · exact .quiet _ rfl (.inr rfl)
    | failed text => exact .quiet _ rfl (.inr rfl)
    | _ => exact hstay
  | moving file number =>
    cases call with
    | done =>
      simp only [move]
      cases disk.names .journal with
      | none => exact .quiet _ rfl (.inl rfl)
      | some source => exact .renames file number _ rfl rfl mem_cons_self rfl
    | failed text => exact .quiet _ rfl (.inl rfl)
    | _ => exact hstay
  | aside file =>
    cases call with
    | done => exact .opens _ rfl rfl
    | failed text => exact .quiet _ rfl (.inl rfl)
    | _ => exact hstay
  | reopened file fresh =>
    cases call with
    | done => exact .quiet _ rfl (.inl rfl)
    | failed text => exact .quiet _ rfl (.inl rfl)
    | _ => exact hstay
  | relocking file fresh =>
    cases call with
    | done =>
      simp only [move]
      cases hlock : disk.lock fresh p with
      | none => exact .quiet _ rfl (.inl rfl)
      | some disk' =>
        obtain ⟨hfree, rfl⟩ := disk.lock_eq_some disk' fresh p hlock
        exact .locks fresh _ hfree rfl (.inl rfl)
    | failed text => exact .quiet _ rfl (.inl rfl)
    | _ => exact hstay
  | dropping file fresh => exact .releases file _ rfl rfl
  | starting file =>
    cases call with
    | done =>
      simp only [move]
      cases disk.names .journal with
      | none => exact .quiet _ rfl (.inl rfl)
      | some source => exact .quiet _ rfl (.inl rfl)
    | failed text => exact .quiet _ rfl (.inl rfl)
    | _ => exact hstay
  | checking file source whole =>
    cases call with
    | got more =>
      simp only [move]
      split_ifs
      · exact .quiet _ rfl (.inl rfl)
      · cases openWriter whole with
        | ok writer => exact .quiet _ rfl (.inl rfl)
        | error e => exact .quiet _ rfl (.inl rfl)
    | failed text => exact .quiet _ rfl (.inl rfl)
    | _ => exact hstay
  | live file =>
    cases call with
    | wrote bytes => exact .writes file bytes rfl
    | finished => exact .releases file _ rfl rfl
    | _ => exact hstay
  | leaving files text =>
    cases files with
    | nil => exact .quiet _ rfl (.inl rfl)
    | cons file files => exact .releases file _ rfl rfl
  | _ => exact hstay

/-- A process that locks the file it opened first finds that file at the path. -/
def LocksNamed (w : World) (e : Nat × Call) : Prop :=
  match w.stages e.1, e.2 with
  | .unlocked file, .done =>
    w.disk.locks file = none → w.disk.names .journal = some file
  | _, _ => True

instance (w : World) (e : Nat × Call) : Decidable (LocksNamed w e) := by
  unfold LocksNamed
  split <;> infer_instance

/-- A call leaves the journals of others at the path, and what they hold. -/
def LeavesJournals (path : String) (w : World) (e : Nat × Call) : Prop :=
  ∀ p file, journalOf (w.stages p) = some file → e.1 ≠ p →
    (w.disk.names .journal = some file → (step path w e).disk.names .journal = some file) ∧
      (step path w e).disk.read file = w.disk.read file

/-- Processes have the locks of the files they count on, and a claimed file is at the path. -/
structure Kept (w : World) : Prop where
  own : ∀ p, ∀ file ∈ lockedFiles (w.stages p), w.disk.locks file = some p
  nodup : ∀ p, (lockedFiles (w.stages p)).Nodup
  named : ∀ p file, claimed (w.stages p) = some file → w.disk.names .journal = some file

theorem claimed_mem (s : Stage) (file : Nat) (h : claimed s = some file) :
    file ∈ lockedFiles s := by
  cases s <;> simp_all [claimed, lockedFiles]

theorem journalOf_mem (s : Stage) (file : Nat) (h : journalOf s = some file) :
    file ∈ lockedFiles s := by
  cases s <;> simp_all [journalOf, lockedFiles]

variable {w : World}

theorem Kept.unique (hk : Kept w) (p q file : Nat) (hp : file ∈ lockedFiles (w.stages p))
    (hq : file ∈ lockedFiles (w.stages q)) : p = q := by
  have h := hk.own p file hp
  rw [hk.own q file hq] at h
  exact (Option.some.inj h).symm

theorem begin_kept (names : Name → Option Nat) (contents : List (List UInt8)) :
    Kept (begin names contents) where
  own := by simp [begin, lockedFiles]
  nodup := by simp [begin, lockedFiles]
  named := by simp [begin, claimed]

/-- What a call leaves to the process that made it, and to every other. -/
structure KeptBy (w : World) (p : Nat) (disk : Disk) (s : Stage) : Prop where
  own : ∀ file ∈ lockedFiles s, disk.locks file = some p
  nodup : (lockedFiles s).Nodup
  named : ∀ file, claimed s = some file → disk.names .journal = some file
  ownOthers : ∀ q, q ≠ p → ∀ file ∈ lockedFiles (w.stages q), disk.locks file = some q
  namedOthers : ∀ q, q ≠ p → ∀ file, claimed (w.stages q) = some file →
    disk.names .journal = some file

section

variable (hk : Kept w) (p : Nat)
include hk

theorem Kept.others (q file : Nat) (hq : q ≠ p)
    (hfile : file ∈ lockedFiles (w.stages q)) : file ∉ lockedFiles (w.stages p) :=
  fun hmine => hq (hk.unique q p file hfile hmine)

theorem Kept.claimed_unique (q file file' : Nat)
    (hp : claimed (w.stages p) = some file) (hq : claimed (w.stages q) = some file') : q = p := by
  have hpath := hk.named p file hp
  rw [hk.named q file' hq] at hpath
  cases hpath
  exact hk.unique q p file (claimed_mem _ _ hq) (claimed_mem _ _ hp)

theorem locks_keeps (file : Nat) (call : Call) (s : Stage)
    (hfree : w.disk.locks file = none) (hl : lockedFiles s = lockedFiles (w.stages p) ++ [file])
    (hc : claimed s = none ∨
      w.stages p = .unlocked file ∧ call = .done ∧ claimed s = some file)
    (hn : LocksNamed w (p, call)) : KeptBy w p (w.disk.setLock file (some p)) s := by
  have hnew : ∀ q, file ∉ lockedFiles (w.stages q) := by
    intro q hmem
    have h := hk.own q file hmem
    rw [hfree] at h
    cases h
  have hold : ∀ q, ∀ other ∈ lockedFiles (w.stages q),
      (w.disk.setLock file (some p)).locks other = some q := by
    intro q other hmem
    have hne : other ≠ file := fun h => hnew q (h ▸ hmem)
    rw [w.disk.locks_setLock_ne file other (some p) hne]
    exact hk.own q other hmem
  refine ⟨?_, ?_, ?_, fun q _ => hold q, fun q _ => hk.named q⟩
  · rw [hl]
    intro other hmem
    rcases mem_append.mp hmem with hmine | hnewest
    · exact hold p other hmine
    · rw [mem_singleton.mp hnewest]
      exact w.disk.locks_setLock_self file (some p)
  · rw [hl, nodup_append]
    refine ⟨hk.nodup p, by simp, ?_⟩
    intro a ha b hb hab
    rw [hab, mem_singleton.mp hb] at ha
    exact hnew p ha
  · intro other hother
    rcases hc with hnone | ⟨hs, hcall, hsome⟩
    · rw [hnone] at hother
      cases hother
    · rw [hsome] at hother
      cases hother
      simp only [LocksNamed, hs, hcall] at hn
      exact hn hfree

theorem releases_keeps (file : Nat) (s : Stage)
    (hl : lockedFiles (w.stages p) = file :: lockedFiles s) (hc : claimed s = none) :
    KeptBy w p (w.disk.release file p) s := by
  have hin : file ∈ lockedFiles (w.stages p) := by
    rw [hl]
    exact (by simp)
  obtain ⟨hnotin, hrest⟩ := nodup_cons.mp (hl ▸ hk.nodup p)
  rw [w.disk.release_own file p (hk.own p file hin)]
  refine ⟨?_, hrest, ?_, ?_, fun q _ => hk.named q⟩
  · intro other hmem
    have hne : other ≠ file := fun h => hnotin (h ▸ hmem)
    rw [w.disk.locks_setLock_ne file other none hne]
    apply hk.own p other
    rw [hl]
    exact mem_cons_of_mem file hmem
  · rw [hc]
    intro other hother
    cases hother
  · intro q hq other hmem
    have hne : other ≠ file := fun h => hk.others p q other hq hmem (h ▸ hin)
    rw [w.disk.locks_setLock_ne file other none hne]
    exact hk.own q other hmem

theorem leaves_path_keeps (file : Nat) (disk : Disk) (s : Stage)
    (hlocks : disk.locks = w.disk.locks) (hl : lockedFiles s = lockedFiles (w.stages p))
    (hs : claimed (w.stages p) = some file) (hc : claimed s = none) : KeptBy w p disk s := by
  refine ⟨?_, ?_, ?_, ?_, ?_⟩
  · rw [hl, hlocks]
    exact hk.own p
  · rw [hl]
    exact hk.nodup p
  · rw [hc]
    intro other hother
    cases hother
  · rw [hlocks]
    exact fun q _ => hk.own q
  · intro q hq file' hfile'
    exact absurd (hk.claimed_unique p q file file' hs hfile') hq

theorem effect_keeps (call : Call) (disk : Disk) (s : Stage)
    (heff : Effect w.disk p (w.stages p) call disk s) (hn : LocksNamed w (p, call)) :
    KeptBy w p disk s := by
  cases heff with
  | quiet _ hl hc =>
    refine ⟨hl ▸ hk.own p, hl ▸ hk.nodup p, ?_, fun q _ => hk.own q, fun q _ => hk.named q⟩
    intro file hfile
    rcases hc with hnone | hsame
    · rw [hnone] at hfile
      cases hfile
    · rw [hsame] at hfile
      exact hk.named p file hfile
  | opens _ hl hc =>
    obtain ⟨hlocks, -, hstays, -⟩ := w.disk.openCreate_cases Name.journal
    refine ⟨?_, hl ▸ hk.nodup p, ?_, ?_, ?_⟩
    · rw [hl, hlocks]
      exact hk.own p
    · rw [hc]
      intro file hfile
      cases hfile
    · rw [hlocks]
      exact fun q _ => hk.own q
    · exact fun q _ file hfile => hstays file (hk.named q file hfile)
  | locks file _ hfree hl hc => exact locks_keeps hk p file call s hfree hl hc hn
  | releases file _ hl hc => exact releases_keeps hk p file s hl hc
  | unlinks file _ hl hs hin hc => exact leaves_path_keeps hk p file _ s rfl hl hs hc
  | renames file number _ hl hs hin hc => exact leaves_path_keeps hk p file _ s rfl hl hs hc
  | writes file bytes hs =>
    exact ⟨hk.own p, hk.nodup p, hk.named p, fun q _ => hk.own q, fun q _ => hk.named q⟩

end

theorem step_kept (path : String) (w : World) (e : Nat × Call) (hk : Kept w)
    (hn : LocksNamed w e) : Kept (step path w e) := by
  have hcall := effect_keeps hk e.1 e.2 _ _ (move_effect path w.disk e.1 (w.stages e.1) e.2) hn
  have hstage : ∀ q, (step path w e).stages q =
      if q = e.1 then (move path w.disk e.1 (w.stages e.1) e.2).2 else w.stages q := fun _ => rfl
  have hdisk : (step path w e).disk = (move path w.disk e.1 (w.stages e.1) e.2).1 := rfl
  constructor
  · intro q
    rw [hstage, hdisk]
    split_ifs with hq
    · rw [hq]
      exact hcall.own
    · exact hcall.ownOthers q hq
  · intro q
    rw [hstage]
    split_ifs with hq
    · exact hcall.nodup
    · exact hk.nodup q
  · intro q
    rw [hstage, hdisk]
    split_ifs with hq
    · exact hcall.named
    · exact hcall.namedOthers q hq

theorem effect_leaves (hk : Kept w) (p : Nat) (call : Call) (disk : Disk) (s : Stage)
    (heff : Effect w.disk p (w.stages p) call disk s) (q file : Nat)
    (hfile : journalOf (w.stages q) = some file) (hne : p ≠ q) :
    (w.disk.names .journal = some file → disk.names .journal = some file) ∧
      disk.read file = w.disk.read file := by
  have hmem := journalOf_mem _ _ hfile
  have hother : file ∉ lockedFiles (w.stages p) := fun h => hne (hk.unique p q file h hmem)
  have htaken : ∀ file', claimed (w.stages p) = some file' →
      w.disk.names .journal = some file → False := by
    intro file' hclaimed hpath
    rw [hk.named p file' hclaimed] at hpath
    cases hpath
    exact hother (claimed_mem _ _ hclaimed)
  cases heff with
  | quiet _ hl hc => exact ⟨id, rfl⟩
  | opens _ hl hc =>
    obtain ⟨-, -, hstays, hread⟩ := w.disk.openCreate_cases Name.journal
    exact ⟨hstays file, hread file⟩
  | locks file' _ hfree hl hc => exact ⟨id, rfl⟩
  | releases file' _ hl hc =>
    simp only [Files.release]
    split_ifs
    · exact ⟨id, rfl⟩
    · exact ⟨id, rfl⟩
  | unlinks file' _ hl hs hin hc => exact ⟨fun h => (htaken file' hs h).elim, rfl⟩
  | renames file' number _ hl hs hin hc => exact ⟨fun h => (htaken file' hs h).elim, rfl⟩
  | writes file' bytes hs =>
    refine ⟨id, w.disk.read_append_ne file' file bytes ?_⟩
    intro h
    apply hother
    rw [hs, h]
    exact mem_cons_self

/-- While every process that locks a file finds it at the path, no process touches another's
journal, and no two share one. -/
theorem journals_are_left_alone (path : String) (names : Name → Option Nat)
    (contents : List (List UInt8)) (es : List (Nat × Call))
    (hn : Along (step path) LocksNamed (World.begin names contents) es) :
    Along (step path) (LeavesJournals path) (World.begin names contents) es ∧
      ∀ p q file, journalOf ((run (step path) (World.begin names contents) es).stages p) = some file →
        journalOf ((run (step path) (World.begin names contents) es).stages q) = some file →
          p = q := by
  have hkept : Kept (run (step path) (begin names contents) es) :=
    run_inv_of_along Kept (step_kept path) _ es (begin_kept names contents) hn
  have hleaves : ∀ w e, Kept w → LocksNamed w e → LeavesJournals path w e := by
    intro w e hw _ p file hfile hne
    exact effect_leaves hw e.1 e.2 _ _ (move_effect path w.disk e.1 (w.stages e.1) e.2) p file
      hfile hne
  constructor
  · exact along_of_inv Kept (step_kept path) hleaves _ es (begin_kept names contents) hn
  · intro p q file hp hq
    exact hkept.unique p q file (journalOf_mem _ _ hp) (journalOf_mem _ _ hq)

/-- A process that finds a journal closed at the path, up to its own fresh one, of file 1. -/
def takesPlace (p : Nat) : List (Nat × Call) :=
  [(p, .done), (p, .got 4095), (p, .got 4095), (p, .done), (p, .done), (p, .done), (p, .done),
    (p, .done), (p, .done), (p, .got 4095)]

def closedJournal : List UInt8 := (journal [] (some none)).bytes

/-- As much of its first record as the first run has written. -/
def firstBytes : List UInt8 := [72, 0, 0, 0]

def onlyJournal : Name → Option Nat
  | .journal => some 0
  | .kept _ => none

/-- The second process comes when the first has its journal, and is refused. -/
theorem second_run_is_refused :
    Along (step "j") (LeavesJournals "j") (World.begin onlyJournal [closedJournal])
        ([(0, .done), (0, .done), (0, .done)] ++ takesPlace 0 ++
          [(0, .wrote firstBytes), (1, .done), (1, .done), (1, .done)]) ∧
      (run (step "j") (World.begin onlyJournal [closedJournal])
        ([(0, .done), (0, .done), (0, .done)] ++ takesPlace 0 ++
          [(0, .wrote firstBytes), (1, .done), (1, .done), (1, .done)])).stages 1 =
        .leaving [] (inUse "j") := by
  refine ⟨(journals_are_left_alone "j" onlyJournal [closedJournal] _ ?_).1, ?_⟩
  · decide +kernel
  · decide +kernel

/-- The second opened the journal before the first set it aside, and locks it afterwards. -/
def staleLock : List (Nat × Call) :=
  [(0, .done), (0, .done), (1, .done), (1, .done), (0, .done)] ++ takesPlace 0 ++
    [(0, .wrote firstBytes), (1, .done), (1, .done), (1, .got 4095), (1, .got 4095),
      (1, .done)]

theorem stale_lock_takes_live_journal :
    (run (step "j") (World.begin onlyJournal [closedJournal]) staleLock).stages 0 = .live 1 ∧
      (run (step "j") (World.begin onlyJournal [closedJournal]) staleLock).disk.names .journal =
        some 1 ∧
      (run (step "j") (World.begin onlyJournal [closedJournal])
        (staleLock ++ [(1, .done)])).stages 0 = .live 1 ∧
      (run (step "j") (World.begin onlyJournal [closedJournal])
        (staleLock ++ [(1, .done)])).disk.names .journal = none ∧
      (run (step "j") (World.begin onlyJournal [closedJournal])
        (staleLock ++ [(1, .done)])).disk.names (.kept 1) = some 1 := by
  decide +kernel

end LoadForge.JournalRig
