import LoadForge.Framework.Files
import LoadForge.Journal.Writer

namespace LoadForge.JournalRig

open Framework Journal

def kMostKeptJournals : Nat := 1000

/-- The journal's path, and the path with a dot and a number. -/
inductive Name
  | journal
  | kept (number : Nat)
  deriving DecidableEq

def keptName (path : String) (number : Nat) : String := path ++ "." ++ toString number

/-- The directory with the files of the runs; a lock is owned by a process. -/
abbrev Disk := Files Name Nat

/-- Why a run is refused when the journal is held by another. -/
def inUse (path : String) : String :=
  "the journal " ++ path ++
    " is in use by another run; give this run a journal of its own, or wait for that one"

def cannotLock (path text : String) : String := "cannot lock the journal " ++ path ++ ": " ++ text

def cannotOpen (path text : String) : String := "cannot open the journal " ++ path ++ ": " ++ text

def cannotRead (path text : String) : String := "cannot read the journal " ++ path ++ ": " ++ text

def cannotStart (path text : String) : String := "cannot start the journal " ++ path ++ ": " ++ text

def notAJournal (path : String) : String :=
  path ++ " exists and is not a journal (its first record does not verify); it is left as it is. " ++
    "Give --journal a path of its own, or move that file away"

def tooManyKept (path : String) : String :=
  "there are already " ++ toString kMostKeptJournals ++ " journals kept beside " ++ path ++
    "; look at them and remove some"

/-- Where a process is in opening its journal: the files it has open, and the call it makes next. -/
inductive Stage
  /-- Opens the path. -/
  | idle
  /-- Syncs the directory after the first open. -/
  | opened (file : Nat)
  /-- Locks the file it opened. -/
  | unlocked (file : Nat)
  /-- Opens the path to read what it holds. -/
  | locked (file : Nat)
  | reading (file source : Nat) (whole : List UInt8)
  /-- Removes the path: the previous journal ended cleanly. -/
  | removing (file : Nat)
  /-- Looks whether the name with this number is free. -/
  | keeping (file number : Nat)
  /-- Renames the path to the name with this number. -/
  | moving (file number : Nat)
  /-- Opens the path again. -/
  | aside (file : Nat)
  | reopened (file fresh : Nat)
  | relocking (file fresh : Nat)
  /-- Closes the previous journal. -/
  | dropping (file fresh : Nat)
  /-- Opens the path to see that the journal is empty. -/
  | starting (file : Nat)
  | checking (file source : Nat) (whole : List UInt8)
  /-- Has its writer: the run is on. -/
  | live (file : Nat)
  /-- Closes the files it has locked, refused. -/
  | leaving (files : List Nat) (text : String)
  | refused (text : String)
  | ended
  deriving DecidableEq

/-- What the system answers the call a process makes next, and what a run does that is on. -/
inductive Call
  | done
  | failed (text : String)
  | got (more : Nat)
  | wrote (bytes : List UInt8)
  | finished
  deriving DecidableEq

def noSuchFile : String := "No such file or directory"

/-- What follows the replay of the bytes at the path. -/
def judged (path : String) (file : Nat) (whole : List UInt8) : Stage :=
  let replayed := scan whole
  if replayed.ending = .kEmpty then .starting file
  else if replayed.ending = .kCorrupt ∧ replayed.entries = [] then
    .leaving [file] (notAJournal path)
  else if replayed.ending = .kTerminated then .removing file
  else .keeping file 1

/-- What follows when the name with a number is taken. -/
def nextName (path : String) (file number : Nat) : Stage :=
  if kMostKeptJournals < number + 1 then .leaving [file] (tooManyKept path)
  else .keeping file (number + 1)

/-- The bytes a read hands over: one at least, when there are any left. -/
def chunk (disk : Disk) (source : Nat) (whole : List UInt8) (more : Nat) : List UInt8 :=
  ((disk.read source).drop whole.length).take (more + 1)

/-- One call of a process. A call that is not the one it makes next does nothing. -/
def move (path : String) (disk : Disk) (p : Nat) : Stage → Call → Disk × Stage
  | .idle, .done => ((disk.openCreate .journal).1, .opened (disk.openCreate .journal).2)
  | .idle, .failed text => (disk, .leaving [] (cannotOpen path text))
  | .opened file, .done => (disk, .unlocked file)
  | .opened _, .failed text => (disk, .leaving [] (cannotOpen path text))
  | .unlocked file, .done =>
    match disk.lock file p with
    | some disk' => (disk', .locked file)
    | none => (disk, .leaving [] (inUse path))
  | .unlocked _, .failed text => (disk, .leaving [] (cannotLock path text))
  | .locked file, .done =>
    match disk.names .journal with
    | some source => (disk, .reading file source [])
    | none => (disk, .leaving [file] (cannotRead path noSuchFile))
  | .locked file, .failed text => (disk, .leaving [file] (cannotRead path text))
  | .reading file source whole, .got more =>
    if chunk disk source whole more = [] then (disk, judged path file whole)
    else (disk, .reading file source (whole ++ chunk disk source whole more))
  | .reading file _ _, .failed text => (disk, .leaving [file] (cannotRead path text))
  | .removing file, .done => (disk.unlink .journal, .aside file)
  | .removing file, .failed text =>
    (disk, .leaving [file] ("cannot remove " ++ path ++ ": " ++ text))
  | .keeping file number, .done =>
    if (disk.names (.kept number)).isSome then (disk, nextName path file number)
    else (disk, .moving file number)
  | .keeping file number, .failed _ => (disk, .moving file number)
  | .moving file number, .done =>
    match disk.names .journal with
    | some _ => (disk.rename .journal (.kept number), .aside file)
    | none =>
      (disk, .leaving [file] ("cannot rename " ++ path ++ " to " ++ keptName path number ++ ": " ++
        noSuchFile))
  | .moving file number, .failed text =>
    (disk, .leaving [file] ("cannot rename " ++ path ++ " to " ++ keptName path number ++ ": " ++
      text))
  | .aside file, .done =>
    ((disk.openCreate .journal).1, .reopened file (disk.openCreate .journal).2)
  | .aside file, .failed text => (disk, .leaving [file] (cannotOpen path text))
  | .reopened file fresh, .done => (disk, .relocking file fresh)
  | .reopened file _, .failed text => (disk, .leaving [file] (cannotOpen path text))
  | .relocking file fresh, .done =>
    match disk.lock fresh p with
    | some disk' => (disk', .dropping file fresh)
    | none => (disk, .leaving [file] (inUse path))
  | .relocking file _, .failed text => (disk, .leaving [file] (cannotLock path text))
  | .dropping file fresh, _ => (disk.release file p, .starting fresh)
  | .starting file, .done =>
    match disk.names .journal with
    | some source => (disk, .checking file source [])
    | none => (disk, .leaving [file] (cannotStart path noSuchFile))
  | .starting file, .failed text => (disk, .leaving [file] (cannotStart path text))
  | .checking file source whole, .got more =>
    if chunk disk source whole more ≠ [] then
      (disk, .checking file source (whole ++ chunk disk source whole more))
    else
      match openWriter whole with
      | .ok _ => (disk, .live file)
      | .error e => (disk, .leaving [file] (cannotStart path e.detail))
  | .checking file _ _, .failed text => (disk, .leaving [file] (cannotStart path text))
  | .live file, .wrote bytes => (disk.append file bytes, .live file)
  | .live file, .finished => (disk.release file p, .ended)
  | .leaving [] text, _ => (disk, .refused text)
  | .leaving (file :: files) text, _ => (disk.release file p, .leaving files text)
  | stage, _ => (disk, stage)

structure World where
  disk : Disk
  stages : Nat → Stage

/-- Before the first call: names and files of any kind, and no lock. -/
def World.begin (names : Name → Option Nat) (contents : List (List UInt8)) : World :=
  ⟨⟨names, contents, fun _ => none⟩, fun _ => .idle⟩

def step (path : String) (w : World) (e : Nat × Call) : World :=
  let moved := move path w.disk e.1 (w.stages e.1) e.2
  ⟨moved.1, fun q => if q = e.1 then moved.2 else w.stages q⟩

end LoadForge.JournalRig
