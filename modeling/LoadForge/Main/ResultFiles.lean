import Mathlib.Tactic.Ring

namespace LoadForge.Cli

/-- A call that failed; `message` is the text the system has for the number. -/
structure SyscallError where
  number : Nat
  call : String
  subject : String
  message : String
  deriving DecidableEq

def SyscallError.describe (e : SyscallError) : String :=
  e.call ++ (if e.subject = "" then "" else "(" ++ e.subject ++ ")") ++ ": " ++ e.message ++
    " (errno " ++ toString e.number ++ ")"

def kInterrupted : Nat := 4
def kMaxConsecutiveInterrupts : Nat := 128

/-- The answers of a directory's open, of each of its fsync calls and of its close. -/
structure DirectoryCalls where
  opened : Except SyscallError Unit := .ok ()
  fsync : Nat → Except SyscallError Unit := fun _ => .ok ()
  closed : Except SyscallError Unit := .ok ()

/-- What the system answers each call of a store, in the order they are made. -/
structure StoreCalls where
  opened : Except SyscallError Unit := .ok ()
  created : DirectoryCalls := {}
  write : Nat → Except SyscallError Nat
  fsync : Nat → Except SyscallError Unit := fun _ => .ok ()
  closed : Except SyscallError Unit := .ok ()
  rename : Except String Unit := .ok ()
  renamed : DirectoryCalls := {}

/-- What the result's path and the path with `.partial` hold. -/
structure Folder where
  partialFile : Option (List UInt8)
  result : Option (List UInt8)
  deriving DecidableEq

namespace Folder

variable (folder : Folder)

def removePartial : Folder := { folder with partialFile := none }

def openPartial : Folder :=
  { folder with partialFile := some (folder.partialFile.getD []) }

def appendPartial (bytes : List UInt8) : Folder :=
  { folder with partialFile := folder.partialFile.map (· ++ bytes) }

def renamePartial : Folder := ⟨none, folder.partialFile⟩

end Folder

/-- The answer to a call made again while it is interrupted, and the number of the next call. -/
def retry {α : Type} (call : Nat → Except SyscallError α) :
    Nat → Nat → Except SyscallError α × Nat
  | 0, next => (call next, next + 1)
  | again + 1, next =>
    match call next with
    | .ok a => (.ok a, next + 1)
    | .error e =>
      if e.number = kInterrupted then retry call again (next + 1) else (.error e, next + 1)

def retryInterrupted {α : Type} (call : Nat → Except SyscallError α) (next : Nat) :
    Except SyscallError α × Nat :=
  retry call kMaxConsecutiveInterrupts next

def syncDirectory (calls : DirectoryCalls) : Except SyscallError Unit :=
  match calls.opened with
  | .error e => .error e
  | .ok () =>
    match (retryInterrupted calls.fsync 0).1 with
    | .error e => .error e
    | .ok () => calls.closed

/-- The file made for appending, and its directory synced. -/
def openStorage (calls : StoreCalls) (folder : Folder) : Folder × Except SyscallError Unit :=
  match calls.opened with
  | .error e => (folder, .error e)
  | .ok () => (folder.openPartial, syncDirectory calls.created)

def append (write : Nat → Except SyscallError Nat) (next : Nat) (bytes : List UInt8)
    (folder : Folder) : Folder × Except String Unit :=
  if bytes = [] then (folder, .ok ())
  else
    match retryInterrupted write next with
    | (.error e, _) => (folder, .error e.describe)
    | (.ok written, next) =>
      if written = 0 then (folder, .error "write made no progress")
      else append write next (bytes.drop written) (folder.appendPartial (bytes.take written))
termination_by bytes.length
decreasing_by
  have hpos := List.length_pos_iff.mpr (by assumption : ¬ bytes = [])
  rw [List.length_drop]
  omega

/-- A close that was interrupted has closed. -/
def closeStorage (closed : Except SyscallError Unit) : Except SyscallError Unit :=
  match closed with
  | .error e => if e.number = kInterrupted then .ok () else .error e
  | .ok () => .ok ()

def partialOf (path : String) : String := path ++ ".partial"

def abandon (path : String) (folder : Folder) (what detail : String) :
    Folder × Except String Unit :=
  (folder.removePartial, .error (what ++ " " ++ partialOf path ++ ": " ++ detail))

def store (path : String) (bytes : List UInt8) (calls : StoreCalls) (folder : Folder) :
    Folder × Except String Unit :=
  match openStorage calls folder.removePartial with
  | (folder, .error e) => abandon path folder "cannot create" e.describe
  | (folder, .ok ()) =>
    match append calls.write 0 bytes folder with
    | (folder, .error detail) => abandon path folder "cannot write" detail
    | (folder, .ok ()) =>
      match (retryInterrupted calls.fsync 0).1 with
      | .error e => abandon path folder "cannot sync" e.describe
      | .ok () =>
        match closeStorage calls.closed with
        | .error e => abandon path folder "cannot close" e.describe
        | .ok () =>
          match calls.rename with
          | .error message =>
            (folder.removePartial,
             .error ("cannot rename " ++ partialOf path ++ " to " ++ path ++ ": " ++ message))
          | .ok () =>
            match syncDirectory calls.renamed with
            | .error e =>
              (folder.renamePartial, .error ("cannot make " ++ path ++ " durable: " ++ e.describe))
            | .ok () => (folder.renamePartial, .ok ())

theorem take_append_isPrefix (bytes more : List UInt8) (count : Nat)
    (h : more <+: bytes.drop count) : bytes.take count ++ more <+: bytes := by
  obtain ⟨rest, hrest⟩ := h
  exact ⟨rest, by rw [List.append_assoc, hrest, List.take_append_drop]⟩

section Parts

variable (write : Nat → Except SyscallError Nat) (next : Nat) (bytes : List UInt8)
  (calls : StoreCalls) (folder : Folder)

end Parts

end LoadForge.Cli
