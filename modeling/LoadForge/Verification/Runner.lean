import LoadForge.Framework.Bytes

namespace LoadForge.Verification

/-- The seven counters of a tally, in the order a frame carries them. -/
inductive Counter
  | unitsComputed | oracleChecked | oracleBlocks | oracleFailed | oracleNotPerformed
  | integrityChecked | integrityFailed
  deriving DecidableEq

@[ext] structure Tally where
  unitsComputed : UInt64 := 0
  oracleChecked : UInt64 := 0
  oracleBlocks : UInt64 := 0
  oracleFailed : UInt64 := 0
  oracleNotPerformed : UInt64 := 0
  integrityChecked : UInt64 := 0
  integrityFailed : UInt64 := 0
  deriving DecidableEq

def Tally.get (t : Tally) : Counter → UInt64
  | .unitsComputed => t.unitsComputed
  | .oracleChecked => t.oracleChecked
  | .oracleBlocks => t.oracleBlocks
  | .oracleFailed => t.oracleFailed
  | .oracleNotPerformed => t.oracleNotPerformed
  | .integrityChecked => t.integrityChecked
  | .integrityFailed => t.integrityFailed

def Tally.add (a b : Tally) : Tally :=
  ⟨a.unitsComputed + b.unitsComputed, a.oracleChecked + b.oracleChecked,
   a.oracleBlocks + b.oracleBlocks, a.oracleFailed + b.oracleFailed,
   a.oracleNotPerformed + b.oracleNotPerformed, a.integrityChecked + b.integrityChecked,
   a.integrityFailed + b.integrityFailed⟩

inductive LockPolicy
  | kRequire | kTry | kNone
  deriving DecidableEq

def LockPolicy.describe : LockPolicy → String
  | .kRequire => "require"
  | .kTry => "try"
  | .kNone => "none"

inductive LockOutcome
  | kLocked | kNotLocked | kFellBack
  deriving DecidableEq

def LockOutcome.describe : LockOutcome → String
  | .kLocked => "locked"
  | .kNotLocked => "not locked"
  | .kFellBack => "not locked: the lock was refused"

/-- The number an outcome is stored as; a larger one locked less. -/
def LockOutcome.code : LockOutcome → Nat
  | .kLocked => 0
  | .kNotLocked => 1
  | .kFellBack => 2

structure MemoryLock where
  policy : LockPolicy := .kRequire
  outcome : LockOutcome := .kLocked
  detail : List UInt8 := []
  deriving DecidableEq

end LoadForge.Verification
