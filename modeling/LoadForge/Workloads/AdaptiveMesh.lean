import LoadForge.Framework.Buffer
import LoadForge.Framework.Loop
import LoadForge.Framework.WordMemory

namespace LoadForge.Workloads.AdaptiveMesh

open Framework

def kBaseLevel : Nat := 4
def kMaxLevel : Nat := 9
def kBaseCells : Nat := 16
def kCoarseCells : Nat := kBaseCells * kBaseCells
def kHotspots : Nat := 256
def kHotspotBytes : Nat := 8
def kInputBytes : Nat := kHotspots * kHotspotBytes

def kMaxLeaves : Nat := kCoarseCells + 3 * (kMaxLevel - kBaseLevel) * kHotspots

/-- The pending cells of one coarse cell's walk: each split pops one cell and pushes four. -/
def kStackCells : Nat := 3 * (kMaxLevel - kBaseLevel) + 1

/-- A hotspot's position on the finest lattice, or outside of it: any two 32-bit words. -/
structure Hotspot where
  x : Nat
  y : Nat
  deriving DecidableEq

structure Cell where
  level : Nat := 0
  ix : Nat := 0
  iy : Nat := 0
  deriving DecidableEq

/-- A leaf of the mesh, and the coarse cell it is gathered into. -/
structure Leaf where
  cell : Nat := 0
  ix : Nat := 0
  iy : Nat := 0
  level : Nat := 0
  deriving DecidableEq

/-- A leaf's fields are packed: three of 16 bits and one of 8. -/
def Leaf.pack (cell : Nat) (next : Cell) : Leaf :=
  ⟨cell % 2 ^ 16, next.ix % 2 ^ 16, next.iy % 2 ^ 16, next.level % 2 ^ 8⟩

/-- Both coordinates, shifted down to the cell's level, are the cell's. -/
def cellContains (cell : Cell) (hotspot : Hotspot) : Bool :=
  hotspot.x >>> (kMaxLevel - cell.level) == cell.ix &&
    hotspot.y >>> (kMaxLevel - cell.level) == cell.iy

def child (cell : Cell) (q : Nat) : Cell :=
  ⟨cell.level + 1, 2 * cell.ix + (q &&& 1), 2 * cell.iy + (q >>> 1)⟩

def splits (cell : Cell) (hotspots : List Hotspot) : Bool :=
  decide (cell.level < kMaxLevel) && hotspots.any fun hotspot => cellContains cell hotspot

def coarseCell (cell : Nat) : Cell := ⟨kBaseLevel, cell % kBaseCells, cell / kBaseCells⟩

def hotspotsOf (input : List UInt8) : Option (List Hotspot) :=
  (List.range kHotspots).foldlM
    (fun hotspots h => do
      let x ← loadWord 4 input (h * kHotspotBytes)
      let y ← loadWord 4 input (h * kHotspotBytes + 4)
      return hotspots ++ [⟨x, y⟩])
    []

/-- The loop over the pending cells of a coarse cell, within the stack and the table. -/
def walk (hotspots : List Hotspot) (cell : Nat) :
    Nat → Output Cell → Output Leaf → Option (Output Leaf)
  | fuel, pending, leaves =>
    if pending.used = 0 then some leaves
    else
      match fuel with
      | 0 => none
      | fuel + 1 => do
        let (next, pending) ← pending.pop
        if splits next hotspots then
          let pending ← [3, 2, 1, 0].foldlM (fun pending q => pending.put (child next q)) pending
          walk hotspots cell fuel pending leaves
        else
          let leaves ← leaves.put (Leaf.pack cell next)
          walk hotspots cell fuel pending leaves

/-- One coarse cell: its leaves to the table, and their number to the counts. -/
def buildCell (fuel : Nat) (hotspots : List Hotspot) (state : Output Leaf × List Nat) (cell : Nat) :
    Option (Output Leaf × List Nat) := do
  let pending : Output Cell := ⟨List.replicate kStackCells {}, 0⟩
  let pending ← pending.put (coarseCell cell)
  let leaves ← walk hotspots cell fuel pending state.1
  if cell < state.2.length then
    return (leaves, state.2.set cell ((leaves.used - state.1.used) % 2 ^ 32))
  else none

/-- The coarse cells in index order, each depth first. -/
def buildMesh (fuel : Nat) (hotspots : List Hotspot) (leaves : List Leaf) (counts : List Nat) :
    Option (Output Leaf × List Nat) :=
  (List.range kCoarseCells).foldlM (buildCell fuel hotspots) (⟨leaves, 0⟩, counts)

end LoadForge.Workloads.AdaptiveMesh
