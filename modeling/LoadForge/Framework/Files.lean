import Mathlib.Tactic.Ring

namespace LoadForge.Framework

/-- A directory of names, the files they name, and who holds each file's lock. -/
structure Files (N O : Type) where
  names : N → Option Nat
  contents : List (List UInt8)
  locks : Nat → Option O

namespace Files

variable {N O : Type} [DecidableEq N] [DecidableEq O] (fs : Files N O)

def setName (name : N) (file : Option Nat) : Files N O :=
  { fs with names := fun n => if n = name then file else fs.names n }

def setLock (file : Nat) (owner : Option O) : Files N O :=
  { fs with locks := fun f => if f = file then owner else fs.locks f }

def read (file : Nat) : List UInt8 := fs.contents.getD file []

/-- Opens the file of a name, making an empty one when the name is free. -/
def openCreate (name : N) : Files N O × Nat :=
  match fs.names name with
  | some file => (fs, file)
  | none =>
    ({ fs with contents := fs.contents ++ [[]] }.setName name (some fs.contents.length),
      fs.contents.length)

/-- An exclusive lock, or nothing when some open description of the file has one. -/
def lock (file : Nat) (owner : O) : Option (Files N O) :=
  match fs.locks file with
  | some _ => none
  | none => some (fs.setLock file (some owner))

def release (file : Nat) (owner : O) : Files N O :=
  if fs.locks file = some owner then fs.setLock file none else fs

def unlink (name : N) : Files N O := fs.setName name none

/-- Gives a name's file another name, which is taken from the file that had it. -/
def rename (name target : N) : Files N O :=
  (fs.setName target (fs.names name)).setName name none

def append (file : Nat) (bytes : List UInt8) : Files N O :=
  { fs with contents := fs.contents.modify file (· ++ bytes) }

omit [DecidableEq O] in
theorem openCreate_cases (name : N) :
    (fs.openCreate name).1.locks = fs.locks ∧
      (fs.openCreate name).1.names name = some (fs.openCreate name).2 ∧
      (∀ file, fs.names name = some file → (fs.openCreate name).1.names name = some file) ∧
      ∀ file, (fs.openCreate name).1.read file = fs.read file := by
  cases hname : fs.names name with
  | some file =>
    have heq : fs.openCreate name = (fs, file) := by simp only [openCreate, hname]
    rw [heq]
    exact ⟨rfl, hname, fun f hf => by rw [hname]; exact hf, fun _ => rfl⟩
  | none =>
    have heq : fs.openCreate name = ({ fs with contents := fs.contents ++ [[]] }.setName name
        (some fs.contents.length), fs.contents.length) := by simp only [openCreate, hname]
    rw [heq]
    refine ⟨rfl, by simp [setName], fun f hf => (nomatch hf), ?_⟩
    intro file
    simp only [read, setName, List.getD_eq_getElem?_getD, List.getElem?_append]
    split
    · rfl
    · next hge =>
      have hout : fs.contents[file]? = none := List.getElem?_eq_none (by omega)
      rw [hout]
      cases hlast : ([[]] : List (List UInt8))[file - fs.contents.length]? with
      | none => rfl
      | some bytes =>
        have hmem : bytes ∈ ([[]] : List (List UInt8)) := List.mem_of_getElem? hlast
        simp only [List.mem_singleton] at hmem
        rw [hmem]
        rfl

omit [DecidableEq N] [DecidableEq O] in
theorem locks_setLock_self (file : Nat) (owner : Option O) :
    (fs.setLock file owner).locks file = owner := if_pos rfl

omit [DecidableEq N] [DecidableEq O] in
theorem locks_setLock_ne (file other : Nat) (owner : Option O)
    (hne : other ≠ file) : (fs.setLock file owner).locks other = fs.locks other := if_neg hne

omit [DecidableEq N] [DecidableEq O] in
theorem lock_eq_some (fs fs' : Files N O) (file : Nat) (owner : O)
    (h : fs.lock file owner = some fs') :
    fs.locks file = none ∧ fs' = fs.setLock file (some owner) := by
  simp only [lock] at h
  cases hfree : fs.locks file with
  | some other => simp [hfree] at h
  | none =>
    simp only [hfree, Option.some.injEq] at h
    exact ⟨rfl, h.symm⟩

omit [DecidableEq N] in
theorem release_own (file : Nat) (owner : O) (h : fs.locks file = some owner) :
    fs.release file owner = fs.setLock file none := if_pos h

omit [DecidableEq N] [DecidableEq O] in
theorem read_append_ne (file other : Nat) (bytes : List UInt8)
    (hne : other ≠ file) : (fs.append file bytes).read other = fs.read other := by
  simp only [append, read, List.getD_eq_getElem?_getD, List.getElem?_modify]
  have hne' : ¬ file = other := fun h => hne h.symm
  simp [hne']

end Files

end LoadForge.Framework
