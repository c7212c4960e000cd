import LoadForge.Framework.Buffer
import LoadForge.Workloads.PageRank

namespace LoadForge.Verification.Graph

open Framework Workloads.Graph

structure Scratch (R : Type) where
  head : List Nat
  distance : List Nat
  queue : List Nat
  inDegree : List Nat
  slot : List Nat
  rankEven : List R
  rankOdd : List R
  accumulators : List R

structure Scratch.Sized {R : Type} (scratch : Scratch R) : Prop where
  head : scratch.head.length = kEdges
  distance : scratch.distance.length = kVertices
  queue : scratch.queue.length = kVertices
  inDegree : scratch.inDegree.length = kVertices
  slot : scratch.slot.length = kEdges
  rankEven : scratch.rankEven.length = kVertices
  rankOdd : scratch.rankOdd.length = kVertices
  accumulators : scratch.accumulators.length = kVertices * 8

def loadU32 (bytes : List UInt8) (element : Nat) : Option Nat := loadWord 4 bytes (element * 4)

def decodeHeads (input : List UInt8) (heads : List Nat) : Option (List Nat) :=
  (List.range kEdges).foldlM
    (fun heads edge => do
      let word ← loadU32 input edge
      storeCell heads edge (effectiveVertex word))
    heads

/-- A head not seen before is one step farther, and queued. -/
def visitHead (heads : List Nat) (tail : Nat) (state : List Nat × Output Nat) (out : Nat) :
    Option (List Nat × Output Nat) := do
  let head ← heads[tail * kOutDegree + out]?
  let seen ← state.1[head]?
  if seen = kUnreachable then
    let distance ← state.1[tail]?
    let distances ← storeCell state.1 head ((distance + 1) % 2 ^ 32)
    let queue ← state.2.put head
    return (distances, queue)
  else return state

def visitQueue (heads : List Nat) : Nat → Nat → List Nat × Output Nat → Option (List Nat)
  | fuel, read, state =>
    if read < state.2.used then
      match fuel with
      | 0 => none
      | fuel + 1 => do
        let tail ← state.2.buffer[read]?
        let state ← (List.range kOutDegree).foldlM (visitHead heads tail) state
        visitQueue heads fuel (read + 1) state
    else some state.1

/-- The distances from the source, by a search over the out-edges. -/
def breadthFirst (fuel : Nat) (heads : List Nat) (source : Nat) (distance queue : List Nat) :
    Option (List Nat) := do
  let distance ← storeCell (List.replicate distance.length kUnreachable) source 0
  let queue ← Output.put ⟨queue, 0⟩ source
  visitQueue heads fuel 0 (distance, queue)

/-- The lane of an edge: its rank among the edges of its head, modulo the lanes. -/
def countSlot (accumulators : Nat) (heads : List Nat) (state : List Nat × List Nat) (edge : Nat) :
    Option (List Nat × List Nat) := do
  let head ← heads[edge]?
  let degree ← state.1[head]?
  let slot ← storeCell state.2 edge (degree % accumulators % 2 ^ 8)
  let inDegree ← storeCell state.1 head ((degree + 1) % 2 ^ 32)
  return (inDegree, slot)

variable {R : Type} (ops : Arithmetic R)

def addEdge (accumulators : Nat) (heads slot : List Nat) (previous : List R) (sums : List R)
    (edge : Nat) : Option (List R) := do
  let rank ← previous[tailOf edge]?
  let head ← heads[edge]?
  let lane ← slot[edge]?
  let sum ← sums[head * accumulators + lane]?
  storeCell sums (head * accumulators + lane) (ops.add sum (ops.mul rank ops.kEdgeShare))

def rankVertex (accumulators : Nat) (sums : List R) (next : List R) (vertex : Nat) :
    Option (List R) := do
  let total ← sums[vertex * accumulators]?
  let total ← (List.range' 1 (accumulators - 1)).foldlM
    (fun total part => do
      let sum ← sums[vertex * accumulators + part]?
      return ops.add total sum)
    total
  storeCell next vertex (ops.add ops.kTeleport (ops.mul ops.kDamping total))

/-- What one iteration works on: the ranks it reads, the ranks it writes and the lanes. -/
structure Iterate (R : Type) where
  previous : List R
  next : List R
  sums : List R

def iterate (accumulators : Nat) (heads slot : List Nat) (state : Iterate R) : Option (Iterate R) := do
  let sums ← (List.range kEdges).foldlM (addEdge ops accumulators heads slot state.previous)
    (List.replicate state.sums.length ops.zero)
  let next ← (List.range kVertices).foldlM (rankVertex ops accumulators sums) state.next
  return ⟨next, state.previous, sums⟩

def pageRank (accumulators : Nat) (heads : List Nat) (scratch : Scratch R) : Option (List R) := do
  let (_, slot) ← (List.range kEdges).foldlM (countSlot accumulators heads)
    (List.replicate scratch.inDegree.length 0, scratch.slot)
  let state ← (List.range kIterations).foldlM
    (fun state _ => iterate ops accumulators heads slot state)
    ⟨List.replicate scratch.rankEven.length ops.kInitialRank, scratch.rankOdd,
      scratch.accumulators.take (kVertices * accumulators)⟩
  return state.previous

theorem decodeHeads_spec {input : List UInt8} (h : input.length = kInputBytes) {heads : List Nat}
    (hh : heads.length = kEdges) :
    ∃ heads', decodeHeads input heads = some heads' ∧ Shows heads' kEdges (headOf input) := by
  rw [decodeHeads]
  apply foldlM_fill hh
  intro k hk heads
  obtain ⟨hhead, _⟩ := headAt_eq h (Nat.le_of_lt hk)
  rw [headAt, Option.map_eq_some_iff] at hhead
  obtain ⟨word, hword, hvertex⟩ := hhead
  have hload : loadU32 input k = some word := hword
  simp [hload, hvertex]

end LoadForge.Verification.Graph
