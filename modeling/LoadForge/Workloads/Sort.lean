import LoadForge.Framework.Loop
import LoadForge.Framework.WordMemory

namespace LoadForge.Workloads.Sort

open Framework

def kKeys : Nat := 1 <<< 17
def kKeyBytes : Nat := 8
def kIndexBytes : Nat := 4
def kInputBytes : Nat := kKeys * kKeyBytes
def kIndexRegionOffset : Nat := kKeys * kKeyBytes
def kOutputBytes : Nat := kKeys * (kKeyBytes + kIndexBytes)

def kChunkCounts : List UInt32 := [1, 2, 4, 8, 16, 32, 64]
def isChunkCount (chunks : UInt32) : Bool := kChunkCounts.any fun count => count == chunks

def keyOffset (position : Nat) : Nat := position * kKeyBytes
def indexOffset (position : Nat) : Nat := kIndexRegionOffset + position * kIndexBytes

def loadLe64 (bytes : List UInt8) (offset : Nat) : Option Nat := loadWord kKeyBytes bytes offset
def loadLe32 (bytes : List UInt8) (offset : Nat) : Option Nat := loadWord kIndexBytes bytes offset

def storeLe64 (bytes : List UInt8) (offset value : Nat) : Option (List UInt8) :=
  storeWord kKeyBytes bytes offset value

def storeLe32 (bytes : List UInt8) (offset value : Nat) : Option (List UInt8) :=
  storeWord kIndexBytes bytes offset value

/-- One output position: a key and the input position it came from. -/
structure Entry where
  key : Nat
  index : Nat
  deriving DecidableEq

def precedes (lhs rhs : Entry) : Bool :=
  lhs.key < rhs.key || (lhs.key == rhs.key && lhs.index < rhs.index)

def kDigitBits : Nat := 8
def kRadix : Nat := 1 <<< kDigitBits
def kPasses : Nat := 64 / kDigitBits
def kCounterBytes : Nat := 4

def kSideKeysBytes : Nat := kKeys * kKeyBytes
def kSideIndicesBytes : Nat := kKeys * kIndexBytes
def kSideBytes : Nat := kSideKeysBytes + kSideIndicesBytes

def countersBytes (chunks : Nat) : Nat := chunks * kRadix * kCounterBytes

/-- What one pass reads. The first has no indices: they are the positions themselves. -/
structure Pass where
  srcKeys : List UInt8
  srcIndices : List UInt8
  rangeKeys : Nat
  shift : Nat

structure Moved where
  keys : List UInt8
  indices : List UInt8

def digitOf (key shift : Nat) : Nat := (key >>> shift) &&& (kRadix - 1)

/-- The digits of a range's keys, counted in 32 bits. -/
def countDigits (pass : Pass) (range : Nat) : Option (Nat → Nat) :=
  (List.range' (range * pass.rangeKeys) pass.rangeKeys).foldlM
    (fun counts position => do
      let key ← loadLe64 pass.srcKeys (position * kKeyBytes)
      let digit := digitOf key pass.shift
      return Function.update counts digit ((counts digit + 1) % 2 ^ 32))
    fun _ => 0

def countRange (pass : Pass) (counters : List UInt8) (range : Nat) : Option (List UInt8) := do
  let counts ← countDigits pass range
  (List.range kRadix).foldlM
    (fun counters digit =>
      storeLe32 counters ((range * kRadix + digit) * kCounterBytes) (counts digit))
    counters

/-- One counter becomes the place where its range starts writing its digit. -/
def placeRange (digit : Nat) (state : Nat × List UInt8) (range : Nat) :
    Option (Nat × List UInt8) := do
  let offset := (range * kRadix + digit) * kCounterBytes
  let count ← loadLe32 state.2 offset
  let counters ← storeLe32 state.2 offset state.1
  return ((state.1 + count) % 2 ^ 32, counters)

/-- All of digit 0 first, in range order, then digit 1, and so on. -/
def placeRanges (chunks : Nat) (counters : List UInt8) : Option (List UInt8) :=
  ((List.range kRadix).foldlM
    (fun state digit => (List.range chunks).foldlM (placeRange digit) state) (0, counters)).map
      Prod.snd

def loadPlaces (counters : List UInt8) (range : Nat) : Option (Nat → Nat) :=
  (List.range kRadix).foldlM
    (fun places digit => do
      let place ← loadLe32 counters ((range * kRadix + digit) * kCounterBytes)
      return Function.update places digit place)
    fun _ => 0

/-- The input position of a key. In the first pass it is the position itself. -/
def indexAt (pass : Pass) (position : Nat) : Option Nat :=
  if pass.srcIndices.isEmpty then some (position % 2 ^ 32)
  else loadLe32 pass.srcIndices (position * kIndexBytes)

/-- One key of a range, and its index, to its place. -/
def moveKey (pass : Pass) (state : (Nat → Nat) × Moved) (position : Nat) :
    Option ((Nat → Nat) × Moved) := do
  let key ← loadLe64 pass.srcKeys (position * kKeyBytes)
  let index ← indexAt pass position
  let digit := digitOf key pass.shift
  let place := state.1 digit
  let keys ← storeLe64 state.2.keys (place * kKeyBytes) key
  let indices ← storeLe32 state.2.indices (place * kIndexBytes) index
  return (Function.update state.1 digit ((place + 1) % 2 ^ 32), ⟨keys, indices⟩)

def moveRange (pass : Pass) (counters : List UInt8) (moved : Moved) (range : Nat) :
    Option Moved := do
  let places ← loadPlaces counters range
  let (_, moved) ← (List.range' (range * pass.rangeKeys) pass.rangeKeys).foldlM (moveKey pass)
    (places, moved)
  return moved

structure Buffers where
  out : Moved
  side : Moved
  counters : List UInt8

/-- The orders in which the executor carries out the tasks of its runs, two in every pass. -/
abbrev Orders := Nat → List Nat

/-- One pass: from the input or from one of the two buffers to the other. -/
def runPass (chunks : Nat) (orders : Orders) (input : List UInt8) (b : Buffers) (number : Nat) :
    Option Buffers := do
  let toOutput := number % 2 = 1
  let pass : Pass := {
    srcKeys := if number = 0 then input else if toOutput then b.side.keys else b.out.keys
    srcIndices := if number = 0 then [] else if toOutput then b.side.indices else b.out.indices
    rangeKeys := kKeys / chunks
    shift := number * kDigitBits }
  let counters ← (orders (2 * number)).foldlM (countRange pass) b.counters
  let counters ← placeRanges chunks counters
  let moved ← (orders (2 * number + 1)).foldlM (moveRange pass counters)
    (if toOutput then b.out else b.side)
  return if toOutput then ⟨moved, b.side, counters⟩ else ⟨b.out, moved, counters⟩

/-- The spans of a unit. The scratch beyond the last counter is not touched. -/
def buffersOf (chunks : Nat) (output scratch : List UInt8) : Buffers where
  out := ⟨output.take kIndexRegionOffset, output.drop kIndexRegionOffset⟩
  side := ⟨scratch.take kSideKeysBytes, (scratch.drop kSideKeysBytes).take kSideIndicesBytes⟩
  counters := (scratch.drop kSideBytes).take (countersBytes chunks)

def compute (chunks : Nat) (orders : Orders) (input output scratch : List UInt8) :
    Option (List UInt8) := do
  let b ← (List.range kPasses).foldlM (runPass chunks orders input)
    (buffersOf chunks output scratch)
  return b.out.keys ++ b.out.indices

/-- Every position once, beside its key, in the order of keys and then of positions. -/
structure IsStableSort (input output : List UInt8) : Prop where
  size : output.length = kOutputBytes
  entry : ∀ j < kKeys, ∃ key index, loadLe64 output (keyOffset j) = some key ∧
    loadLe32 output (indexOffset j) = some index ∧ index < kKeys ∧
    loadLe64 input (index * kKeyBytes) = some key
  every : ∀ index < kKeys, ∃ j < kKeys, loadLe32 output (indexOffset j) = some index
  ordered : ∀ i j, i < j → j < kKeys → ∀ key index key' index',
    loadLe64 output (keyOffset i) = some key → loadLe32 output (indexOffset i) = some index →
    loadLe64 output (keyOffset j) = some key' → loadLe32 output (indexOffset j) = some index' →
    key < key' ∨ key = key' ∧ index < index'

end LoadForge.Workloads.Sort
