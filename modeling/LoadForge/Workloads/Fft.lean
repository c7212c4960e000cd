import LoadForge.Framework.Cells

namespace LoadForge.Workloads.Fft

open Framework

def kPoints : Nat := 4096
def kRadices : List Nat := [2, 4]
def kButterfliesPerTask : Nat := 256

def isRadix (radix : Nat) : Bool := kRadices.any fun r => r == radix

/-- What a stage kernel needs to know about its stage. -/
structure StageGeometry where
  length : Nat := 1
  tail : Nat := 1
  stride : Nat := 1

structure Complexes (C : Type) where
  times : C → C → C
  plus : C → C → C
  minus : C → C → C
  timesMinusI : C → C
  kTwiddles : List C

/-- What a stage writes, and which elements it has read and written so far. -/
structure Pass (C : Type) where
  out : List C
  reads : List Nat := []
  writes : List Nat := []

variable {C : Type}

def load (source : List C) (pass : Pass C) (element : Nat) : Option (C × Pass C) :=
  source[element]?.map fun value => (value, { pass with reads := pass.reads ++ [element] })

def store (pass : Pass C) (element : Nat) (value : C) : Option (Pass C) := do
  let out ← storeCell pass.out element value
  return { pass with out := out, writes := pass.writes ++ [element] }

variable (ops : Complexes C)

def twiddled (g : StageGeometry) (a v : Nat) (x : C) : Option C :=
  ops.kTwiddles[a * v * g.tail * g.stride]?.map (ops.times x)

def radix2Butterfly (g : StageGeometry) (source : List C) (pass : Pass C) (butterfly : Nat) :
    Option (Pass C) := do
  let v := butterfly / g.tail
  let c := butterfly % g.tail
  let read := 2 * v * g.tail + c
  let (z0, pass) ← load source pass read
  let (x1, pass) ← load source pass (read + g.tail)
  let z1 ← twiddled ops g 1 v x1
  let write := v * g.tail + c
  let pass ← store pass write (ops.plus z0 z1)
  store pass (write + g.length * g.tail) (ops.minus z0 z1)

def radix4Butterfly (g : StageGeometry) (source : List C) (pass : Pass C) (butterfly : Nat) :
    Option (Pass C) := do
  let v := butterfly / g.tail
  let c := butterfly % g.tail
  let read := 4 * v * g.tail + c
  let (z0, pass) ← load source pass read
  let (x1, pass) ← load source pass (read + g.tail)
  let z1 ← twiddled ops g 1 v x1
  let (x2, pass) ← load source pass (read + 2 * g.tail)
  let z2 ← twiddled ops g 2 v x2
  let (x3, pass) ← load source pass (read + 3 * g.tail)
  let z3 ← twiddled ops g 3 v x3
  let sum02 := ops.plus z0 z2
  let diff02 := ops.minus z0 z2
  let sum13 := ops.plus z1 z3
  let rotated := ops.timesMinusI (ops.minus z1 z3)
  let write := v * g.tail + c
  let step := g.length * g.tail
  let pass ← store pass write (ops.plus sum02 sum13)
  let pass ← store pass (write + step) (ops.plus diff02 rotated)
  let pass ← store pass (write + 2 * step) (ops.minus sum02 sum13)
  store pass (write + 3 * step) (ops.minus diff02 rotated)

def butterflyOf (radix : Nat) (g : StageGeometry) (source : List C) (pass : Pass C)
    (butterfly : Nat) : Option (Pass C) :=
  if radix = 2 then radix2Butterfly ops g source pass butterfly
  else radix4Butterfly ops g source pass butterfly

/-- The scalar kernel of a radix, over a range of butterflies. -/
def stageKernel (radix : Nat) (g : StageGeometry) (source : List C) (pass : Pass C)
    (range : Nat × Nat) : Option (Pass C) :=
  (List.range' range.1 (range.2 - range.1)).foldlM (butterflyOf ops radix g source) pass

def taskRange (butterflies index : Nat) : Nat × Nat :=
  let first := index * kButterfliesPerTask
  let last := first + kButterfliesPerTask
  (first, if last < butterflies then last else butterflies)

def taskCount (butterflies : Nat) : Nat :=
  (butterflies + kButterfliesPerTask - 1) / kButterfliesPerTask

/-- The tasks of a stage, in the order they are run: together every butterfly, each once. -/
def IsSplit (butterflies : Nat) (tasks : List (Nat × Nat)) : Prop :=
  (tasks.flatMap fun range => List.range' range.1 (range.2 - range.1)).Perm (List.range butterflies)

inductive Place
  | input
  | out
  | scratch
  deriving DecidableEq

/-- The buffers between two stages, and what each of the stages so far has read and written. -/
structure Stages (C : Type) where
  out : List C
  scratch : List C
  source : Place := .input
  length : Nat := 1
  log : List (List Nat × List Nat) := []

def Stages.buffer (s : Stages C) (input : List C) : Place → List C
  | .input => input
  | .out => s.out
  | .scratch => s.scratch

/-- The last stage writes to the output, the one before it to the scratch, and so back. -/
def targetOf (stages stage : Nat) : Place := if (stages - 1 - stage) % 2 = 0 then .out else .scratch

/-- One stage, from the buffer of the last to its own, which is another. -/
def runStage (radix n stages : Nat) (splits : Nat → List (Nat × Nat)) (input : List C)
    (s : Stages C) (stage : Nat) : Option (Stages C) := do
  let target := targetOf stages stage
  if s.source = target then none
  let g : StageGeometry := ⟨s.length, n / (radix * s.length), kPoints / n⟩
  let pass ← (splits stage).foldlM (stageKernel ops radix g (s.buffer input s.source))
    { out := s.buffer input target }
  return {
    out := if target = .out then pass.out else s.out
    scratch := if target = .out then s.scratch else pass.out
    source := target
    length := s.length * radix
    log := s.log ++ [(pass.reads, pass.writes)] }

def countStages (radix n : Nat) : Nat → Nat → Nat → Option Nat
  | fuel, length, stages =>
    if length < n then
      match fuel with
      | 0 => none
      | fuel + 1 => countStages radix n fuel (length * radix) (stages + 1)
    else some stages

/-- The transform of so many points, its stages split into tasks in any way. -/
def transform (fuel radix n : Nat) (splits : Nat → List (Nat × Nat)) (input out scratch : List C) :
    Option (Stages C) := do
  let stages ← countStages radix n fuel 1 0
  (List.range stages).foldlM (runStage ops radix n stages splits input)
    { out := out, scratch := scratch }

end LoadForge.Workloads.Fft
