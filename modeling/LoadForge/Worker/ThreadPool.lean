import LoadForge.Framework.Run
import LoadForge.Worker.Executor

namespace LoadForge.Worker.Executor

/-- Why a pool was not made: it had no threads, or a thread was not started or not prepared. -/
inductive PoolError (E : Type)
  | noThreads
  | ofThread (thread : Nat) (cause : E)

/-- Where a thread is, with its local variables; a step is a region under the mutex, a claim, or a
task's invocation or return. -/
inductive Serving (T C : Type)
  | absent
  | prepares
  | waits (seen : UInt64) (notified : Bool)
  | claims (seen : UInt64) (call : Call T C)
  | claimed (seen : UInt64) (call : Call T C) (index : UInt64)
  | invokes (seen : UInt64) (call : Call T C) (index : UInt64)
  | leaves (seen : UInt64)
  | exited

/-- Where the owner is: in the factory, between calls, in run, or in the destructor. -/
inductive Owning (E : Type)
  | starts (slot : Nat)
  | waitsReported (slot : Nat) (notified : Bool)
  | owns
  | waitsFinished (notified : Bool)
  | joins (slot : Nat) (failure : Option (PoolError E))
  | ended (failure : Option (PoolError E))

structure ThreadPool (T C E : Type) [Inhabited T] [Inhabited C] where
  owner : Owning E
  serving : Nat → Serving T C := fun _ => .absent
  reported : Nat → Bool := fun _ => false
  failure : Nat → Option (PoolError E) := fun _ => none
  started : Nat := 0
  generation : UInt64 := 0
  stopping : Bool := false
  task : T := default
  context : C := default
  count : UInt64 := 0
  done : UInt64 := 0
  next : UInt64 := 0
  log : List (Entry T C) := []

/-- What the threads do next, in any order. A thread that waits may wake at any time. -/
inductive PoolEvent (T C E : Type)
  | start (refusal : Option E)
  | report (slot : Nat) (failure : Option E)
  | serve (slot : Nat)
  | run (call : Call T C)
  | wake
  | destroy
  | join

variable {T C E : Type} [Inhabited T] [Inhabited C]

def Serving.notify : Serving T C → Serving T C
  | .waits seen _ => .waits seen true
  | other => other

def Owning.notifyFinished : Owning E → Owning E
  | .waitsFinished _ => .waitsFinished true
  | other => other

def Owning.notifyReported : Owning E → Owning E
  | .waitsReported slot _ => .waitsReported slot true
  | other => other

namespace ThreadPool

variable (p : ThreadPool T C E)

def setServing (slot : Nat) (serving : Serving T C) : ThreadPool T C E :=
  { p with serving := Function.update p.serving slot serving }

def note (entry : Entry T C) : ThreadPool T C E :=
  { p with log := p.log ++ [entry] }

def destroy (failure : Option (PoolError E)) : ThreadPool T C E :=
  { p with
    owner := .joins 0 failure
    stopping := true
    serving := fun slot => (p.serving slot).notify }

def start (slot : Nat) (refusal : Option E) : ThreadPool T C E :=
  match refusal with
  | some cause => p.destroy (some (.ofThread slot cause))
  | none =>
    { p.setServing slot .prepares with
      started := p.started + 1
      owner := .waitsReported slot false }

/-- The head of serve's loop, under the mutex: wait, return, or take the run. -/
def look (slot : Nat) (seen : UInt64) : ThreadPool T C E :=
  if p.generation == seen && !p.stopping then p.setServing slot (.waits seen false)
  else if p.stopping then p.setServing slot .exited
  else p.setServing slot (.claims p.generation ⟨p.count, p.task, p.context⟩)

/-- The head of serve, under the mutex, once the thread is prepared. -/
def report (slot : Nat) (failure : Option E) : ThreadPool T C E :=
  let q := { p with
    failure := Function.update p.failure slot (failure.map (PoolError.ofThread slot))
    reported := Function.update p.reported slot true
    owner := p.owner.notifyReported }
  if failure.isSome then q.setServing slot .exited else q.look slot q.generation

def serve (threads : UInt64) (p : ThreadPool T C E) (slot : Nat) : ThreadPool T C E :=
  match p.serving slot with
  | .waits seen _ => p.look slot seen
  | .claims seen call =>
    { p with next := p.next + 1 }.setServing slot
      (if p.next < call.count then .claimed seen call p.next else .leaves seen)
  | .claimed seen call index =>
    (p.note (.begins call.task call.context index slot)).setServing slot (.invokes seen call index)
  | .invokes seen call index =>
    (p.note (.ends call.task call.context index slot)).setServing slot (.claims seen call)
  | .leaves seen =>
    { p with
      done := p.done + 1
      owner := if p.done + 1 == threads then p.owner.notifyFinished else p.owner }.look slot seen
  | _ => p

def await (threads : UInt64) (p : ThreadPool T C E) : ThreadPool T C E :=
  if p.done == threads then { p.note .returns with owner := .owns }
  else { p with owner := .waitsFinished false }

/-- A call of run, up to its first wait. -/
def call (threads : UInt64) (p : ThreadPool T C E) (call : Call T C) : ThreadPool T C E :=
  if call.count == 0 then (p.note (.calls call)).note .returns
  else { p.note (.calls call) with
    task := call.task
    context := call.context
    count := call.count
    done := 0
    next := 0
    generation := p.generation + 1
    serving := fun slot => (p.serving slot).notify }.await threads

def wake (threads : UInt64) (p : ThreadPool T C E) : ThreadPool T C E :=
  match p.owner with
  | .waitsReported slot _ =>
    if p.reported slot then
      match p.failure slot with
      | some failure => p.destroy (some failure)
      | none => { p with owner := if slot + 1 < threads.toNat then .starts (slot + 1) else .owns }
    else { p with owner := .waitsReported slot false }
  | .waitsFinished _ => p.await threads
  | _ => p

def join : ThreadPool T C E :=
  match p.owner with
  | .joins slot failure =>
    if slot < p.started then
      match p.serving slot with
      | .exited => { p with owner := .joins (slot + 1) failure }
      | _ => p
    else { p with owner := .ended failure }
  | _ => p

def step (threads : UInt64) (p : ThreadPool T C E) : PoolEvent T C E → ThreadPool T C E
  | .start refusal =>
    match p.owner with
    | .starts slot => p.start slot refusal
    | _ => p
  | .report slot failure =>
    match p.serving slot with
    | .prepares => p.report slot failure
    | _ => p
  | .serve slot => p.serve threads slot
  | .run call =>
    match p.owner with
    | .owns => p.call threads call
    | _ => p
  | .wake => p.wake threads
  | .destroy =>
    match p.owner with
    | .owns => p.destroy none
    | _ => p
  | .join => p.join

/-- Before the first step of the factory, which refuses to make a pool of no threads. -/
def make (threads : UInt64) : ThreadPool T C E :=
  { owner := if threads == 0 then .ended (some .noThreads) else .starts 0 }

def after (threads : UInt64) (es : List (PoolEvent T C E)) : ThreadPool T C E :=
  Framework.run (step threads) (make threads) es

end ThreadPool

end LoadForge.Worker.Executor
