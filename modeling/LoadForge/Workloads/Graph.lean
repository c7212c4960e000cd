import LoadForge.Framework.Cells
import LoadForge.Framework.CountingSort
import LoadForge.Framework.WordMemory

namespace LoadForge.Workloads.Graph

open Framework List

def kVertices : Nat := 32768
def kOutDegree : Nat := 8
def kEdges : Nat := kVertices * kOutDegree
def kUnreachable : Nat := 0xFFFFFFFF
def kWordBytes : Nat := 4
def kInputBytes : Nat := (kEdges + 1) * kWordBytes

/-- Vertices per task of a sweep and of a bottom-up step. -/
def kVertexChunk : Nat := 512

theorem kVertices_eq : kVertices = 32768 := rfl
theorem kEdges_eq : kEdges = 262144 := rfl

def wordAt (bytes : List UInt8) (index : Nat) : Option Nat :=
  loadWord kWordBytes bytes (index * kWordBytes)

/-- A vertex number read from the input, reduced modulo the number of vertices. -/
def effectiveVertex (stored : Nat) : Nat := stored % kVertices

def headAt (input : List UInt8) (edge : Nat) : Option Nat := (wordAt input edge).map effectiveVertex

def tailOf (edge : Nat) : Nat := edge / kOutDegree % 2 ^ 32

/-- The scratch, carved; the ranks use the cursors' region again. -/
structure Arena where
  offsets : List Nat
  tails : List Nat
  cursor : List Nat
  lists : List Nat
  dist : List Nat

structure Arena.Sized (arena : Arena) : Prop where
  offsets : arena.offsets.length = kVertices + 1
  tails : arena.tails.length = kEdges
  cursor : arena.cursor.length = kVertices
  lists : arena.lists.length = 2 * kVertices
  dist : arena.dist.length = kVertices

def zeroArena : Arena where
  offsets := List.replicate (kVertices + 1) 0
  tails := List.replicate kEdges 0
  cursor := List.replicate kVertices 0
  lists := List.replicate (2 * kVertices) 0
  dist := List.replicate kVertices 0

theorem zeroArena_sized : zeroArena.Sized :=
  ⟨length_replicate .., length_replicate .., length_replicate ..,
    length_replicate .., length_replicate ..⟩

def countHead (input : List UInt8) (offsets : List Nat) (edge : Nat) : Option (List Nat) := do
  let head ← headAt input edge
  let count ← offsets[head + 1]?
  storeCell offsets (head + 1) ((count + 1) % 2 ^ 32)

/-- A vertex's edges start where those of the vertex before it end. -/
def sumOffset (state : List Nat × List Nat) (vertex : Nat) : Option (List Nat × List Nat) := do
  let count ← state.1[vertex + 1]?
  let first ← state.1[vertex]?
  let offsets ← storeCell state.1 (vertex + 1) ((count + first) % 2 ^ 32)
  let first ← offsets[vertex]?
  let cursor ← storeCell state.2 vertex first
  return (offsets, cursor)

def placeEdge (input : List UInt8) (state : List Nat × List Nat) (edge : Nat) :
    Option (List Nat × List Nat) := do
  let head ← headAt input edge
  let place ← state.2[head]?
  let cursor ← storeCell state.2 head ((place + 1) % 2 ^ 32)
  let tails ← storeCell state.1 place (tailOf edge)
  return (tails, cursor)

/-- Groups the edges by head, those of one head in increasing number. -/
def buildInEdges (input : List UInt8) (arena : Arena) : Option Arena := do
  let offsets ← (List.range kEdges).foldlM (countHead input)
    (List.replicate arena.offsets.length 0)
  let (offsets, cursor) ← (List.range kVertices).foldlM sumOffset (offsets, arena.cursor)
  let (tails, cursor) ← (List.range kEdges).foldlM (placeEdge input) (arena.tails, cursor)
  return { arena with offsets := offsets, tails := tails, cursor := cursor }

def headOf (input : List UInt8) (edge : Nat) : Nat := (headAt input edge).getD 0

/-- The first edges of a graph that lead to a vertex, in increasing number. -/
def inEdges (head : Nat → Nat) (n vertex : Nat) : List Nat :=
  (List.range n).filter fun edge => head edge = vertex

def edgesBelow (head : Nat → Nat) (vertex : Nat) : Nat :=
  Nat.count (fun edge => head edge < vertex) kEdges

/-- The lists of edges by head: where each of them starts, and the tails in it. -/
structure Grouped (head : Nat → Nat) (offsets tails : List Nat) : Prop where
  offsets : Shows offsets (kVertices + 1) (edgesBelow head)
  tails : ∀ v < kVertices, ∀ q e, (inEdges head kEdges v)[q]? = some e →
    tails[edgesBelow head v + q]? = some (tailOf e)

theorem headAt_eq {input : List UInt8} (h : input.length = kInputBytes) {edge : Nat}
    (he : edge ≤ kEdges) : headAt input edge = some (headOf input edge) ∧
      headOf input edge < kVertices := by
  have hword := (holds_of_length kWordBytes h).load edge (Nat.lt_succ_of_le he)
  have hhead : headAt input edge = some (effectiveVertex
      (leNat ((input.drop (edge * kWordBytes)).take kWordBytes))) := by
    rw [headAt, wordAt, hword]
    rfl
  refine ⟨by rw [headOf, hhead]; rfl, ?_⟩
  rw [headOf, hhead]
  exact Nat.mod_lt _ (by decide)

theorem tailOf_eq {edge : Nat} (h : edge < kEdges) :
    tailOf edge = edge / kOutDegree ∧ tailOf edge < kVertices := by
  have hlt : edge / kOutDegree < kVertices := (Nat.div_lt_iff_lt_mul (by decide)).mpr h
  have heq : tailOf edge = edge / kOutDegree := Nat.mod_eq_of_lt (Nat.lt_trans hlt (by decide))
  exact ⟨heq, heq ▸ hlt⟩

variable (head : Nat → Nat)

theorem inEdges_succ (n v : Nat) : inEdges head (n + 1) v =
    if head n = v then inEdges head n v ++ [n] else inEdges head n v := by
  rw [inEdges, range_succ, filter_append]
  split_ifs with h
  · simp [h, inEdges]
  · simp [h, inEdges]

theorem inEdges_length (n v : Nat) :
    (inEdges head n v).length = Nat.count (fun edge => head edge = v) n := by
  induction n with
  | zero => rfl
  | succ n ih =>
    rw [inEdges_succ, Nat.count_succ]
    split_ifs with h
    · simp [ih]
    · exact ih

theorem mem_inEdges {head : Nat → Nat} {n v e : Nat} : e ∈ inEdges head n v ↔ e < n ∧ head e = v := by
  simp [inEdges]

theorem edgesBelow_succ (v : Nat) :
    edgesBelow head (v + 1) = edgesBelow head v + (inEdges head kEdges v).length := by
  rw [edgesBelow, count_lt_succ, inEdges_length, edgesBelow]

theorem edgesBelow_mono {u v : Nat} (h : u ≤ v) :
    edgesBelow head u ≤ edgesBelow head v := count_lt_mono head h kEdges

theorem edgesBelow_le (v : Nat) : edgesBelow head v ≤ kEdges :=
  Nat.count_le ..

theorem edgesBelow_zero : edgesBelow head 0 = 0 := by
  apply Nat.count_of_forall_not
  intro e _ h
  exact Nat.not_lt_zero _ h

end LoadForge.Workloads.Graph
