import LoadForge.Framework.Run

namespace LoadForge.Ipc

open Framework

/-- One beat: when, how far, in what phase, and from whom. -/
structure Heartbeat where
  timestampNs : Int64 := 0
  progress : UInt64 := 0
  phase : UInt32 := 0
  pid : UInt32 := 0
  deriving DecidableEq

inductive RegionFault
  | kSyscall | kMagic | kVersion | kSlotCount | kSlotBytes | kTooManyWorkers | kSlotOutOfRange | kTorn
  deriving DecidableEq

structure RegionError where
  fault : RegionFault
  detail : String
  deriving DecidableEq

def countDetail (what : String) (found expected : Nat) : String :=
  what ++ " " ++ toString found ++ ", expected " ++ toString expected

def kMaxTornRetries : Nat := 64

/-- The four words of a beat, in the order they are stored and loaded. -/
inductive Field
  | timestampNs | progress | phase | pid
  deriving DecidableEq

def Field.next : Field → Option Field
  | .timestampNs => some .progress
  | .progress => some .phase
  | .phase => some .pid
  | .pid => none

def Heartbeat.copy (source : Heartbeat) (field : Field) (target : Heartbeat) : Heartbeat :=
  match field with
  | .timestampNs => { target with timestampNs := source.timestampNs }
  | .progress => { target with progress := source.progress }
  | .phase => { target with phase := source.phase }
  | .pid => { target with pid := source.pid }

/-- The memory of a slot. An odd sequence says that a write is in progress. -/
structure Cell where
  sequence : UInt64 := 0
  beat : Heartbeat := {}

/-- Where a publisher is: each step is one load or one store. -/
inductive Publishing
  | idle
  | loads (beat : Heartbeat)
  | opens (beat : Heartbeat) (writing : UInt64)
  | stores (beat : Heartbeat) (writing : UInt64) (field : Field)
  | closes (beat : Heartbeat) (writing : UInt64)
  | returned (answer : Except RegionError Unit)

/-- Where an observer is. The beat of an attempt has the words loaded so far. -/
inductive Observing
  | idle
  | begins (attempts : Nat)
  | reads (attempts : Nat) (before : UInt64) (field : Field) (beat : Heartbeat)
  | checks (attempts : Nat) (before : UInt64) (beat : Heartbeat)
  | answered (answer : Except RegionError (Option Heartbeat))

/-- A slot, its only publisher, and the beats of every publish that is complete. -/
structure Slot where
  cell : Cell := {}
  publisher : Publishing := .idle
  published : List Heartbeat := []

structure Observer where
  slot : Nat := 0
  doing : Observing := .idle

def Publishing.busy : Publishing → Bool
  | .idle | .returned _ => false
  | _ => true

def Observing.busy : Observing → Bool
  | .idle | .answered _ => false
  | _ => true

def slotOutOfRange (slot slots : Nat) : RegionError :=
  ⟨.kSlotOutOfRange, countDetail "slot" slot slots⟩

/-- The call of publish. One that is still at work is not called again. -/
def Slot.publish (s : Slot) (slot slots : Nat) (beat : Heartbeat) : Slot :=
  if s.publisher.busy then s
  else if slots ≤ slot then { s with publisher := .returned (.error (slotOutOfRange slot slots)) }
  else { s with publisher := .loads beat }

/-- The next load or store of a publisher: the sequence goes odd before the words change and even
after. -/
def Slot.publisherStep (s : Slot) : Slot :=
  match s.publisher with
  | .loads beat => { s with publisher := .opens beat (s.cell.sequence + 1) }
  | .opens beat writing =>
    { s with
      cell := { s.cell with sequence := writing }
      publisher := .stores beat writing .timestampNs }
  | .stores beat writing field =>
    { s with
      cell := { s.cell with beat := beat.copy field s.cell.beat }
      publisher := match field.next with
        | some next => .stores beat writing next
        | none => .closes beat writing }
  | .closes beat writing =>
    { cell := { s.cell with sequence := writing + 1 }
      publisher := .returned (.ok ())
      published := s.published ++ [beat] }
  | _ => s

def sampleIsConsistent (before after : UInt64) : Bool := before &&& 1 == 0 && before == after

def tornSlot (attempts : Nat) : RegionError :=
  ⟨.kTorn, "no consistent sample in " ++ toString attempts ++ " attempts"⟩

def retry (attempts : Nat) : Observing :=
  if attempts + 1 < kMaxTornRetries then .begins (attempts + 1)
  else .answered (.error (tornSlot (attempts + 1)))

def Observing.step (doing : Observing) (cell : Cell) : Observing :=
  match doing with
  | .begins attempts =>
    if cell.sequence = 0 then .answered (.ok none)
    else .reads attempts cell.sequence .timestampNs {}
  | .reads attempts before field beat =>
    match field.next with
    | some next => .reads attempts before next (cell.beat.copy field beat)
    | none => .checks attempts before (cell.beat.copy field beat)
  | .checks attempts before beat =>
    if sampleIsConsistent before cell.sequence then .answered (.ok (some beat)) else retry attempts
  | _ => doing

def Observer.observe (o : Observer) (slot slots : Nat) : Observer :=
  if o.doing.busy then o
  else if slots ≤ slot then ⟨slot, .answered (.error (slotOutOfRange slot slots))⟩
  else ⟨slot, .begins 0⟩

/-- The slots of a region, fresh ones zeroed, and everyone who looks at them. -/
structure Region where
  slots : Nat → Slot := fun _ => {}
  observers : Nat → Observer := fun _ => {}

/-- What happens to a region: calls, and single loads and stores in any order. -/
inductive RegionEvent
  | publish (slot : Nat) (beat : Heartbeat)
  | publisherStep (slot : Nat)
  | observe (observer slot : Nat)
  | observerStep (observer : Nat)
  deriving DecidableEq

def Region.setSlot (r : Region) (slot : Nat) (s : Slot) : Region :=
  { r with slots := Function.update r.slots slot s }

def Region.setObserver (r : Region) (observer : Nat) (o : Observer) : Region :=
  { r with observers := Function.update r.observers observer o }

def Region.step (count : Nat) (r : Region) : RegionEvent → Region
  | .publish slot beat => r.setSlot slot ((r.slots slot).publish slot count beat)
  | .publisherStep slot => r.setSlot slot (r.slots slot).publisherStep
  | .observe observer slot => r.setObserver observer ((r.observers observer).observe slot count)
  | .observerStep observer =>
    let o := r.observers observer
    r.setObserver observer ⟨o.slot, o.doing.step (r.slots o.slot).cell⟩

end LoadForge.Ipc
