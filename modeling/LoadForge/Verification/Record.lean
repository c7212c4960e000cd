import LoadForge.Framework.Bytes

namespace LoadForge.Verification

open Framework

/-- How often the expensive checks run: one unit in every period, 0 for none. -/
structure DutyCycle where
  oraclePeriod : UInt32 := 1
  integrityPeriod : UInt32 := 1
  deriving DecidableEq

/-- Where a record comes from; an enumeration is held as its code. -/
structure Provenance where
  logicalCpu : Option UInt32 := none
  physicalPackage : Option UInt32 := none
  physicalCore : Option UInt32 := none
  numaNode : Option UInt32 := none
  bufferAddress : Option UInt64 := none
  bufferOffset : Option UInt64 := none
  iteration : Option UInt64 := none
  workload : Option (List UInt8) := none
  workloadVersion : Option UInt32 := none
  seed : Option UInt64 := none
  isa : Option UInt8 := none
  inputIntegrity : Option UInt8 := none
  duty : Option DutyCycle := none
  decomposition : Option UInt32 := none
  footprintBytes : Option UInt64 := none
  deriving DecidableEq

def kWordBytes : UInt64 := 8
def kMaxWindowBytes : Nat := 64
def kMaxTextBytes : Nat := 1024
def kIsaPathCount : Nat := 4
def kErrorRecordFrameType : UInt16 := 16
def kRecordFormatVersion : UInt8 := 2

/-- The bytes an exact comparison found different, as a window over the compared bytes. -/
structure Difference where
  domain : UInt8
  firstOffset : UInt64
  lastOffset : UInt64
  popcount : UInt64
  windowOffset : UInt64
  expected : List UInt8
  actual : List UInt8
  deriving DecidableEq

structure ExactBitCorruption where
  provenance : Provenance
  side : UInt8
  check : List UInt8
  difference : Option Difference
  lineBytes : UInt32
  deriving DecidableEq

/-- Residual, tolerance and condition number are the bits of doubles. -/
structure NumericalVerificationFailure where
  provenance : Provenance
  check : List UInt8
  residual : UInt64
  tolerance : UInt64
  conditionNumber : Option UInt64
  element : Option UInt64
  deriving DecidableEq

structure VerificationNotPerformed where
  provenance : Provenance
  what : List UInt8
  why : List UInt8
  blocksCompared : UInt64
  deriving DecidableEq

inductive ErrorRecord
  | exact (record : ExactBitCorruption)
  | numerical (record : NumericalVerificationFailure)
  | notPerformed (record : VerificationNotPerformed)
  deriving DecidableEq

def provenanceOf : ErrorRecord → Provenance
  | .exact r => r.provenance
  | .numerical r => r.provenance
  | .notPerformed r => r.provenance

/-- A record states a wrong result unless it states that a check was not made. -/
def isWrongResult : ErrorRecord → Bool
  | .notPerformed _ => false
  | _ => true

/-- `offset` lies inside the window, judged by the expected bytes. -/
def inWindow (d : Difference) (offset : UInt64) : Bool :=
  d.windowOffset ≤ offset && (offset - d.windowOffset).toNat < d.expected.length

def differsAt (d : Difference) (offset : UInt64) : Bool :=
  inWindow d offset &&
    d.expected[(offset - d.windowOffset).toNat]? != d.actual[(offset - d.windowOffset).toNat]?

namespace F64

def magnitude (bits : UInt64) : Nat := bits.toNat % 2 ^ 63

def infinity : Nat := 0x7FF0000000000000

def isNan (bits : UInt64) : Bool := infinity < magnitude bits

def isFinite (bits : UInt64) : Bool := magnitude bits < infinity

/-- The order of doubles that are not NaN is the order of these; both zeros are 0. -/
def key (bits : UInt64) : Int :=
  if bits.toNat < 2 ^ 63 then (magnitude bits : Int) else -(magnitude bits : Int)

def gt (a b : UInt64) : Bool := !isNan a && !isNan b && decide (key b < key a)

end F64

def exceedsTolerance (residual tolerance : UInt64) : Bool :=
  F64.isNan residual || F64.gt residual tolerance

def longerThanAllowed (what : String) (size : Nat) : String :=
  what ++ " of " ++ toString size ++ " bytes, more than the " ++ toString kMaxTextBytes ++
    " a record carries"

def brokenDifferenceRule (d : Difference) : Option String :=
  let wordStart := d.firstOffset / kWordBytes * kWordBytes
  if 1 < d.domain then
    some ("difference domain " ++ toString d.domain ++ " is neither stored nor derived")
  else if d.popcount = 0 then
    some "difference popcount 0: a difference in which no bit differs"
  else if d.lastOffset < d.firstOffset then
    some ("difference first offset " ++ toString d.firstOffset ++ " after its last offset " ++
      toString d.lastOffset)
  else if d.windowOffset ≠ wordStart then
    some ("difference window offset " ++ toString d.windowOffset ++
      ", not the first offset rounded down to a word (" ++ toString wordStart ++ ")")
  else if d.expected.length ≠ d.actual.length then
    some ("difference windows of " ++ toString d.expected.length ++ " and " ++
      toString d.actual.length ++ " bytes, not the same length")
  else if d.expected = [] then
    some "difference windows empty: no byte to show"
  else if kMaxWindowBytes < d.expected.length then
    some ("difference windows of " ++ toString d.expected.length ++ " bytes, more than the " ++
      toString kMaxWindowBytes ++ " a record carries")
  else if !inWindow d d.firstOffset then
    some ("difference first offset " ++ toString d.firstOffset ++ " outside its window of " ++
      toString d.expected.length ++ " bytes at offset " ++ toString d.windowOffset)
  else if !differsAt d d.firstOffset then
    some ("difference first offset " ++ toString d.firstOffset ++
      ": expected and actual bytes there are the same")
  else if inWindow d d.lastOffset && !differsAt d d.lastOffset then
    some ("difference last offset " ++ toString d.lastOffset ++
      ": expected and actual bytes there are the same")
  else none

def brokenExactRule (r : ExactBitCorruption) : Option String :=
  if 1 < r.side then some ("side " ++ toString r.side ++ " is neither output nor input")
  else if r.check = [] then some "an exact corruption that names no check"
  else if kMaxTextBytes < r.check.length then some (longerThanAllowed "check" r.check.length)
  else if r.lineBytes.toUInt64 < kWordBytes then
    some ("line size of " ++ toString r.lineBytes ++ " bytes, less than a word (" ++
      toString kWordBytes ++ ")")
  else if !hasSingleBit r.lineBytes.toNat then
    some ("line size of " ++ toString r.lineBytes ++ " bytes, not a power of two")
  else r.difference.bind brokenDifferenceRule

/-- `shortest` is the shortest decimal text of a double, which the standard library gives. -/
def brokenNumericalRule (shortest : UInt64 → String) (r : NumericalVerificationFailure) :
    Option String :=
  if kMaxTextBytes < r.check.length then some (longerThanAllowed "check" r.check.length)
  else if !F64.isFinite r.tolerance then
    some ("tolerance " ++ shortest r.tolerance ++ " is not finite")
  else if F64.key r.tolerance ≤ 0 then
    some ("tolerance " ++ shortest r.tolerance ++ " is not strictly positive")
  else if !exceedsTolerance r.residual r.tolerance then
    some ("residual " ++ shortest r.residual ++ " does not exceed tolerance " ++
      shortest r.tolerance ++ ": a check that passed, not a failure")
  else none

def brokenNotPerformedRule (r : VerificationNotPerformed) : Option String :=
  if kMaxTextBytes < r.what.length then some (longerThanAllowed "what" r.what.length)
  else if kMaxTextBytes < r.why.length then some (longerThanAllowed "why" r.why.length)
  else none

def brokenProvenanceRule (p : Provenance) : Option String :=
  match p.workload.filter fun w => kMaxTextBytes < w.length with
  | some w => some (longerThanAllowed "workload name" w.length)
  | none =>
    match p.isa.filter fun isa => kIsaPathCount ≤ isa.toNat with
    | some isa => some ("ISA path " ++ toString isa ++ " is none of the " ++
        toString kIsaPathCount)
    | none =>
      match p.inputIntegrity.filter fun i => 3 < i with
      | some i => some ("input integrity " ++ toString i ++ " is none of its four values")
      | none => none

/-- The first rule a record breaks, in words, or nothing when it is valid. -/
def brokenRule (shortest : UInt64 → String) (r : ErrorRecord) : Option String :=
  (brokenProvenanceRule (provenanceOf r)).or <|
    match r with
    | .exact r => brokenExactRule r
    | .numerical r => brokenNumericalRule shortest r
    | .notPerformed r => brokenNotPerformedRule r

end LoadForge.Verification
