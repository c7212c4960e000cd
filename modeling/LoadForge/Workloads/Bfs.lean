import LoadForge.Framework.Distance
import LoadForge.Workloads.GraphEdges

namespace LoadForge.Workloads.Graph

open Framework

def kFrontierChunk : Nat := 64

def kParallelFrontier : Nat := 256
def kBottomUpMinimum : Nat := 512
def kAlpha : Nat := 14

/-- Where a task is: before an operation on what the tasks share, with what it holds. -/
inductive Task
  | exchange (position out : Nat)
  | look (vertex : Nat)
  | ask (vertex place : Nat)
  | claim (vertex : Nat)
  | add (vertex : Nat) (after : Task)
  | put (vertex slot : Nat) (after : Task)
  | done
  deriving DecidableEq

/-- How a step is carried out. A small one is, task after task, on the calling thread. -/
inductive Mode
  | bottomUp
  | parallel
  | serial
  deriving DecidableEq

/-- A step while its tasks run, and the distances when it began. -/
structure Running where
  mode : Mode
  tasks : List Task
  began : List Nat

structure Search where
  dist : List Nat
  frontier : List Nat
  spare : List Nat
  size : Nat
  visited : Nat
  level : Nat
  found : Nat
  running : Option Running

/-- The next edge of a top-down task's slice of the frontier, from a position of it on. -/
def topDownFrom (size index position : Nat) : Task :=
  if position < min (index * kFrontierChunk + kFrontierChunk) size then .exchange position 0
  else .done

def topDownAfter (size index position out : Nat) : Task :=
  if out + 1 < kOutDegree then .exchange position (out + 1)
  else topDownFrom size index (position + 1)

def bottomUpFrom (index vertex : Nat) : Task :=
  if vertex < index * kVertexChunk + kVertexChunk then .look vertex else .done

def askFrom (arena : Arena) (index vertex place : Nat) : Option Task := do
  let last ← arena.offsets[vertex + 1]?
  return if place < last then .ask vertex place else bottomUpFrom index (vertex + 1)

/-- A relaxed load sees the word of now, or the one from before the step. -/
def loadDist (s : Search) (r : Running) (stale : Bool) (vertex : Nat) : Option Nat :=
  if stale then r.began[vertex]? else s.dist[vertex]?

def stepTask (input : List UInt8) (arena : Arena) (s : Search) (r : Running) (index : Nat)
    (stale : Bool) : Task → Option (Search × Task)
  | .exchange position out => do
    let tail ← (s.frontier.take s.size)[position]?
    let head ← headAt input (tail * kOutDegree + out)
    let word ← s.dist[head]?
    let after := topDownAfter s.size index position out
    if word = kUnreachable then
      let dist ← storeCell s.dist head ((s.level + 1) % 2 ^ 32)
      return ({ s with dist := dist }, .add head after)
    else return (s, after)
  | .look vertex => do
    let word ← loadDist s r stale vertex
    if word ≠ kUnreachable then return (s, bottomUpFrom index (vertex + 1))
    else
      let first ← arena.offsets[vertex]?
      let task ← askFrom arena index vertex first
      return (s, task)
  | .ask vertex place => do
    let tail ← arena.tails[place]?
    let word ← loadDist s r stale tail
    if word = s.level then return (s, .claim vertex)
    else
      let task ← askFrom arena index vertex (place + 1)
      return (s, task)
  | .claim vertex => do
    let dist ← storeCell s.dist vertex ((s.level + 1) % 2 ^ 32)
    return ({ s with dist := dist }, .add vertex (bottomUpFrom index (vertex + 1)))
  | .add vertex after =>
    return ({ s with found := (s.found + 1) % 2 ^ 32 }, .put vertex s.found after)
  | .put vertex slot after => do
    let spare ← storeCell s.spare slot vertex
    return ({ s with spare := spare }, after)
  | .done => return (s, .done)

/-- Whether a task has something to do; on the calling thread, in its turn. -/
def canStep (r : Running) (index : Nat) : Bool :=
  match r.tasks[index]? with
  | none => false
  | some task => decide (task ≠ .done) &&
    (decide (r.mode ≠ .serial) || (r.tasks.take index).all fun earlier => earlier = .done)

def modeOf (size visited : Nat) : Mode :=
  if kBottomUpMinimum ≤ size ∧ (kVertices + 2 ^ 64 - visited) % 2 ^ 64 < size * kAlpha then .bottomUp
  else if kParallelFrontier ≤ size then .parallel
  else .serial

def tasksOf (size : Nat) : Mode → List Task
  | .bottomUp => (List.range (kVertices / kVertexChunk)).map fun index =>
    bottomUpFrom index (index * kVertexChunk)
  | _ => (List.range ((size + kFrontierChunk - 1) / kFrontierChunk)).map fun index =>
    topDownFrom size index (index * kFrontierChunk)

/-- What happens next: an operation of a task, or the caller starts a step or ends one. -/
inductive Event
  | task (index : Nat) (stale : Bool)
  | main

def finished (s : Search) : Bool := s.running.isNone && s.size == 0

def moves (s : Search) : Event → Bool
  | .task index _ => s.running.any fun r => canStep r index
  | .main => match s.running with
    | none => decide (0 < s.size)
    | some r => r.tasks.all fun task => task = .done

def startStep (s : Search) : Search :=
  let mode := modeOf s.size s.visited
  { s with found := 0, running := some ⟨mode, tasksOf s.size mode, s.dist⟩ }

def endStep (s : Search) : Search :=
  { s with
    frontier := s.spare
    spare := s.frontier
    size := s.found
    visited := (s.visited + s.found) % 2 ^ 64
    level := (s.level + 1) % 2 ^ 32
    running := none }

/-- One event of the search. No access outside of an array has a result. -/
def step (input : List UInt8) (arena : Arena) (s : Search) (e : Event) : Option Search :=
  if moves s e then
    match e, s.running with
    | .main, none => some (startStep s)
    | .main, some _ => some (endStep s)
    | .task index stale, some r => do
      let task ← r.tasks[index]?
      let (s, task) ← stepTask input arena s r index stale task
      return { s with running := some { r with tasks := r.tasks.set index task } }
    | .task _ _, none => some s
  else some s

/-- The search after some events, and how many of them made a difference. -/
def runBfs (input : List UInt8) (arena : Arena) (events : List Event) (s : Search) :
    Option (Search × Nat) :=
  events.foldlM
    (fun state e => do
      let s ← step input arena state.1 e
      return (s, state.2 + if moves state.1 e then 1 else 0))
    (s, 0)

def sourceAt (input : List UInt8) : Option Nat := (wordAt input kEdges).map effectiveVertex

def startBfs (input : List UInt8) (arena : Arena) : Option Search := do
  let source ← sourceAt input
  let dist ← storeCell (List.replicate arena.dist.length kUnreachable) source 0
  let frontier ← storeCell (arena.lists.take kVertices) 0 source
  return ⟨dist, frontier, arena.lists.drop kVertices, 1, 1, 0, 0, none⟩

def Leads (head : Nat → Nat) (u v : Nat) : Prop :=
  ∃ out < kOutDegree, head (u * kOutDegree + out) = v

/-- Every vertex has the number of edges on a shortest path to it, or the word that says there is
none. -/
structure Distances (head : Nat → Nat) (source : Nat) (dist : List Nat) : Prop where
  size : dist.length = kVertices
  reached : ∀ v < kVertices, ∀ n, IsDist (Leads head) source n v → dist[v]? = some n
  unreached : ∀ v < kVertices, (∀ n, ¬IsDist (Leads head) source n v) →
    dist[v]? = some kUnreachable

theorem Distances.unique {head : Nat → Nat} {source : Nat} {dist dist' : List Nat}
    (h : Distances head source dist) (h' : Distances head source dist') : dist = dist' := by
  apply List.ext_getElem?
  intro v
  by_cases hv : v < kVertices
  · by_cases hsome : ∃ n, IsDist (Leads head) source n v
    · obtain ⟨n, hn⟩ := hsome
      rw [h.reached v hv n hn, h'.reached v hv n hn]
    · have hnone : ∀ n, ¬IsDist (Leads head) source n v := fun n hn => hsome ⟨n, hn⟩
      rw [h.unreached v hv hnone, h'.unreached v hv hnone]
  · rw [List.getElem?_eq_none (by rw [h.size]; omega), List.getElem?_eq_none (by rw [h'.size]; omega)]

theorem edge_lt {u out : Nat} (hu : u < kVertices) (ho : out < kOutDegree) :
    u * kOutDegree + out < kEdges :=
  calc u * kOutDegree + out < u * kOutDegree + kOutDegree := Nat.add_lt_add_left ho _
    _ = (u + 1) * kOutDegree := (Nat.succ_mul u kOutDegree).symm
    _ ≤ kVertices * kOutDegree := Nat.mul_le_mul_right kOutDegree hu

theorem leads_of_edge {head : Nat → Nat} {e v : Nat} (he : e < kEdges) (hv : head e = v) :
    Leads head (tailOf e) v := by
  refine ⟨e % kOutDegree, Nat.mod_lt e (by decide), ?_⟩
  rw [(tailOf_eq he).1, Nat.mul_comm, Nat.div_add_mod, hv]

/-- Distinct vertices are no more than there are. -/
theorem length_le_of_nodup {order : List Nat} (h : order.Nodup) (hlt : ∀ v ∈ order, v < kVertices) :
    order.length ≤ kVertices := by
  have hsub : order ⊆ List.range kVertices := fun v hv => List.mem_range.mpr (hlt v hv)
  have hle := (h.subperm hsub).length_le
  rw [List.length_range] at hle
  exact hle

end LoadForge.Workloads.Graph
