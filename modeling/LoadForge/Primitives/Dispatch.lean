import Mathlib.Tactic.Ring

namespace LoadForge.Primitives

inductive IsaPath
  | kScalar | kAvx2 | kAvx512 | kNeon
  deriving DecidableEq

def IsaPath.describe : IsaPath → String
  | .kScalar => "scalar"
  | .kAvx2 => "avx2"
  | .kAvx512 => "avx512"
  | .kNeon => "neon"

def IsaPath.code : IsaPath → UInt8
  | .kScalar => 0
  | .kAvx2 => 1
  | .kAvx512 => 2
  | .kNeon => 3

/-- The path a word names: exactly those four words. -/
def parseIsaPath (text : String) : Option IsaPath :=
  [IsaPath.kScalar, .kAvx2, .kAvx512, .kNeon].find? fun path => path.describe == text

theorem parseIsaPath_describe (path : IsaPath) : parseIsaPath path.describe = some path := by
  cases path <;> decide

structure IsaSet where
  contains : IsaPath → Bool

def IsaSet.intersect (a b : IsaSet) : IsaSet := ⟨fun path => a.contains path && b.contains path⟩

def IsaSet.of (paths : List IsaPath) : IsaSet := ⟨fun path => paths.contains path⟩

/-- The order of choice when no path is requested, the widest first. -/
def kPreference : List IsaPath := [.kAvx512, .kAvx2, .kNeon, .kScalar]

def listPaths (set : IsaSet) : String :=
  match (kPreference.filter set.contains).map IsaPath.describe with
  | [] => "none"
  | paths => ", ".intercalate paths

inductive DispatchFault
  | kNotCompiled | kNotSupported
  deriving DecidableEq

structure DispatchError where
  fault : DispatchFault
  requested : IsaPath
  detail : String
  deriving DecidableEq

/-- The path a run uses: the requested one when it can be run, or the first preferred one. -/
def selectPath (requested : Option IsaPath) (supported compiled : IsaSet) :
    Except DispatchError IsaPath :=
  match requested with
  | some path =>
    if path = .kScalar then .ok path
    else if !compiled.contains path then
      .error ⟨.kNotCompiled, path, path.describe ++
        " was requested but this build holds no kernels for it (compiled: " ++
        listPaths compiled ++ ")"⟩
    else if !supported.contains path then
      .error ⟨.kNotSupported, path, path.describe ++
        " was requested but this machine cannot run it (supported: " ++
        listPaths supported ++ ")"⟩
    else .ok path
  | none => .ok ((kPreference.find? (supported.intersect compiled).contains).getD .kScalar)

end LoadForge.Primitives
