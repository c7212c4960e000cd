import LoadForge.Verification.CompareStored
import LoadForge.Verification.SliceRunner

namespace LoadForge.Verification

open Framework

structure UnitEvidence where
  index : UInt64
  input : List UInt8
  output : List UInt8

def Agrees (verdict : Option Integrity.Verdict) : Prop := ∃ blocks, verdict = some (.agreement blocks)

/-- What an oracle derived from the output, where the other bytes are those of the output itself. -/
def kDerived : UInt8 := 1

end LoadForge.Verification
