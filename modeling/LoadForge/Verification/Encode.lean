import LoadForge.Verification.Codec

namespace LoadForge.Verification

open Framework

def putU8 (value : UInt8) : List UInt8 := leBytes 1 value.toNat

def putU32 (value : UInt32) : List UInt8 := leBytes 4 value.toNat

def putU64 (value : UInt64) : List UInt8 := leBytes 8 value.toNat

def putRaw (bytes : List UInt8) : List UInt8 := leBytes 8 bytes.length ++ bytes

def putPresence (present : Bool) : List UInt8 := putU8 (if present then 1 else 0)

/-- A presence flag, and the value only when there is one. -/
def putOptional {α : Type} (put : α → List UInt8) (value : Option α) : List UInt8 :=
  match value with
  | none => putPresence false
  | some a => putPresence true ++ put a

def putDuty (duty : DutyCycle) : List UInt8 :=
  putU32 duty.oraclePeriod ++ putU32 duty.integrityPeriod

def putProvenance (p : Provenance) : List UInt8 :=
  putOptional putU32 p.logicalCpu ++ (putOptional putU32 p.physicalCore ++
  (putOptional putU32 p.numaNode ++ (putOptional putU64 p.bufferAddress ++
  (putOptional putU64 p.bufferOffset ++ (putOptional putU64 p.iteration ++
  (putOptional putRaw p.workload ++ (putOptional putU32 p.workloadVersion ++
  (putOptional putU64 p.seed ++ (putOptional putU8 p.isa ++
  (putOptional putU8 p.inputIntegrity ++ (putOptional putDuty p.duty ++
  (putOptional putU32 p.physicalPackage ++ (putOptional putU32 p.decomposition ++
  putOptional putU64 p.footprintBytes)))))))))))))

def putDifference (d : Difference) : List UInt8 :=
  putU8 d.domain ++ (putU64 d.firstOffset ++ (putU64 d.lastOffset ++ (putU64 d.popcount ++
    (putU64 d.windowOffset ++ (putRaw d.expected ++ putRaw d.actual)))))

def putKind : ErrorRecord → List UInt8
  | .exact r =>
    putU8 r.side ++ (putRaw r.check ++ (putU32 r.lineBytes ++
      putOptional putDifference r.difference))
  | .numerical r =>
    putRaw r.check ++ (putU64 r.residual ++ (putU64 r.tolerance ++
      (putOptional putU64 r.conditionNumber ++ putOptional putU64 r.element)))
  | .notPerformed r => putRaw r.what ++ (putRaw r.why ++ putU64 r.blocksCompared)

def kindCode : ErrorRecord → UInt8
  | .exact _ => 1
  | .numerical _ => 2
  | .notPerformed _ => 3

def encode (r : ErrorRecord) : List UInt8 :=
  putU8 kRecordFormatVersion ++ (putU8 (kindCode r) ++
    (putProvenance (provenanceOf r) ++ putKind r))

def Difference.isValid (d : Difference) : Bool :=
  d.domain ≤ 1 && 1 ≤ d.popcount && d.firstOffset ≤ d.lastOffset &&
    d.windowOffset == d.firstOffset / kWordBytes * kWordBytes &&
    d.expected.length == d.actual.length && !d.expected.isEmpty &&
    d.expected.length ≤ kMaxWindowBytes && differsAt d d.firstOffset &&
    (!inWindow d d.lastOffset || differsAt d d.lastOffset)

def Provenance.isValid (p : Provenance) : Bool :=
  (p.workload.all fun w => w.length ≤ kMaxTextBytes) &&
    (p.isa.all fun isa => isa.toNat < kIsaPathCount) &&
    (p.inputIntegrity.all fun i => i ≤ 3)

def ErrorRecord.isValid (r : ErrorRecord) : Bool :=
  (provenanceOf r).isValid &&
    match r with
    | .exact r =>
      r.side ≤ 1 && !r.check.isEmpty && r.check.length ≤ kMaxTextBytes &&
        kWordBytes ≤ r.lineBytes.toUInt64 && hasSingleBit r.lineBytes.toNat &&
        r.difference.all Difference.isValid
    | .numerical r =>
      r.check.length ≤ kMaxTextBytes && F64.isFinite r.tolerance && decide (0 < F64.key r.tolerance) &&
        exceedsTolerance r.residual r.tolerance
    | .notPerformed r => r.what.length ≤ kMaxTextBytes && r.why.length ≤ kMaxTextBytes

end LoadForge.Verification
