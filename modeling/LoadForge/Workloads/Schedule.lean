import LoadForge.Worker.Control

namespace LoadForge.Mixed

open Framework Worker Workloads

def kMaxLabelBytes : Nat := 64

structure WorkerCommands where
  slot : Nat
  commands : List Command
  deriving DecidableEq

/-- At `atNs` of the run the machine goes into `phase`. -/
structure Step where
  atNs : Int
  phase : String
  workload : String
  workers : List WorkerCommands
  deriving DecidableEq

structure Start where
  workload : String
  footprintBytes : UInt64
  deriving DecidableEq

/-- A timetable of commands. `start` is empty when the workers start as the configuration
says. -/
structure Schedule where
  workers : Nat
  start : List Start := []
  phase : String
  workload : String
  steps : List Step
  deriving DecidableEq

/-- A label cut to the journal's limit. A character is one byte: labels are ASCII. -/
def bounded (label : String) : String := String.ofList (label.toList.take kMaxLabelBytes)

def labelTooLong (label : String) : Bool := kMaxLabelBytes < (bytesOf label).length

def startProblem (schedule : Schedule) : Option String :=
  (schedule.start.zipIdx.find? fun (start, _) =>
    !isValidName start.workload || start.footprintBytes == 0).map fun (_, slot) =>
      "the start of worker " ++ toString slot ++
        " names no workload of a valid name or no footprint"

/-- The first thing wrong with one worker's commands at a step. -/
def workerCommandsProblem (step : Step) (workers : Nat) (each : WorkerCommands) : Option String :=
  if workers ≤ each.slot then
    some ("the step \"" ++ step.phase ++ "\" names worker " ++ toString each.slot ++ " of " ++
      toString workers)
  else
    (each.commands.find? fun command => !isValid command).map fun command =>
      "the step \"" ++ step.phase ++ "\" sends worker " ++ toString each.slot ++ " a " ++
        commandName command ++ " that breaks the rules of its command"

def commandsProblem (step : Step) (workers : Nat) : Option String :=
  step.workers.findSome? (workerCommandsProblem step workers)

/-- The first thing wrong with the steps, after those whose labels were `seen`. -/
def stepsProblem (workers : Nat) : List String → Int → List Step → Option String
  | _, _, [] => none
  | seen, before, step :: rest =>
    if step.phase ∈ seen then
      some ("the step \"" ++ step.phase ++ "\" repeats the label of an earlier step")
    else if step.atNs < before then
      some ("the step \"" ++ step.phase ++ "\" is not after the one before it")
    else if labelTooLong step.phase || labelTooLong step.workload then
      some ("the step \"" ++ step.phase ++ "\" has a label past the journal's limit")
    else
      match commandsProblem step workers with
      | some bad => some bad
      | none => stepsProblem workers (step.phase :: seen) step.atNs rest

/-- Why a run of `workers` workers cannot follow a schedule. -/
def problem (schedule : Schedule) (workers : Nat) : Option String :=
  if schedule.workers ≠ workers then
    some ("the schedule is for " ++ toString schedule.workers ++ " worker(s) and the run has " ++
      toString workers)
  else if schedule.start ≠ [] ∧ schedule.start.length ≠ workers then
    some "the schedule names a start for some workers and not for all"
  else if labelTooLong schedule.phase || labelTooLong schedule.workload then
    some "the schedule's first phase or workload label is past the journal's limit"
  else
    match startProblem schedule with
    | some bad => some bad
    | none => stepsProblem workers [] 0 schedule.steps

end LoadForge.Mixed
