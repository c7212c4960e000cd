import LoadForge.Explore.Objective

namespace LoadForge.Explore

variable {F : Type} [Doubles F]

def minDouble (a b : F) : F := if b < a then b else a

def maxDouble (a b : F) : F := if a < b then b else a

/-- One reading of the reference: when, and what the objective scored. -/
structure ReferencePoint (F : Type) where
  atNs : Int
  value : F

structure Bracket (F : Type) where
  lower : Nat
  upper : Nat
  fraction : F

variable (points : List (ReferencePoint F))

def timeAt (index : Nat) : Int :=
  (points[index]?.map (·.atNs)).getD 0

def valueAt (index : Nat) : F :=
  (points[index]?.map (·.value)).getD 0.0

/-- The first reading not before `atNs` and its neighbour; the ends are held. -/
def bracketAt (atNs : Int) : Bracket F :=
  if atNs ≤ timeAt points 0 then ⟨0, 0, 0.0⟩
  else
    match (List.range' 1 (points.length - 1)).find? fun i => decide (atNs ≤ timeAt points i) with
    | some i =>
      let spanNs := timeAt points i - timeAt points (i - 1)
      ⟨i - 1, i, ((atNs - timeAt points (i - 1) : Int) : F) / (spanNs : F)⟩
    | none => ⟨points.length - 1, points.length - 1, 0.0⟩

def baselineAt (atNs : Int) : F :=
  if points = [] then 0.0
  else
    let bracket := bracketAt points atNs
    let before := valueAt points bracket.lower
    before + bracket.fraction * (valueAt points bracket.upper - before)

/-- The squared distance of an interior reading from the line through its neighbours, scaled. -/
def residualAt (i : Nat) : F :=
  let spanNs : F := ((timeAt points (i + 1) - timeAt points (i - 1) : Int) : F)
  let w : F :=
    if (0.0 : F) < spanNs then ((timeAt points i - timeAt points (i - 1) : Int) : F) / spanNs else 0.5
  let residual :=
    valueAt points i -
      (valueAt points (i - 1) + w * (valueAt points (i + 1) - valueAt points (i - 1)))
  residual * residual / (1.0 + w * w + (1.0 - w) * (1.0 - w))

def referenceVariance : F :=
  let n := points.length
  if n < 2 then 0.0
  else if n = 2 then
    let step := valueAt points 1 - valueAt points 0
    step * step / 2.0
  else
    (List.range' 1 (n - 2)).foldl (fun total i => total + residualAt points i) 0.0 / ((n - 2 : Nat) : F)

def kMostReadingsOnOneDegree : Nat := 3

def referenceDegrees (readings : Nat) : Nat :=
  if readings ≤ kMostReadingsOnOneDegree then 1 else (readings - 2) / 2

/-- How much of the reference's noise the mean of trials at `trialTimes` carries. -/
def correctionGain (trialTimes : List Int) (anchorCount : Nat) : F :=
  let each : F := 1.0 / (trialTimes.length : F)
  let weight := trialTimes.foldl (fun weight atNs =>
      let bracket := bracketAt points atNs
      (weight.modify bracket.lower (· + (1.0 - bracket.fraction) * each)).modify bracket.upper
        (· + bracket.fraction * each))
    (List.replicate points.length (0.0 : F))
  let weight := (List.range anchorCount).foldl
    (fun weight k => weight.modify k (· - 1.0 / (anchorCount : F))) weight
  weight.foldl (fun squares w => squares + w * w) 0.0

def corrected (raw baseline anchor : F) : F := raw - (baseline - anchor)

/-- What correcting for drift adds to the uncertainty of a mean. -/
structure Correction (F : Type) where
  variance : F
  maxDegrees : Nat

def noCorrection : Correction F := ⟨0.0, 2 ^ 64 - 1⟩

structure Estimate (F : Type) where
  replicates : Nat
  mean : F
  stddev : Option F
  halfWidth : Option F

structure Moments (F : Type) where
  mean : F
  stddev : F

def moments (samples : List F) : Moments F :=
  if samples = [] then ⟨0.0, 0.0⟩
  else
    let mean := samples.foldl (· + ·) (0.0 : F) / (samples.length : F)
    if samples.length < 2 then ⟨mean, 0.0⟩
    else
      let squares := samples.foldl (fun squares x => squares + (x - mean) * (x - mean)) (0.0 : F)
      ⟨mean, Doubles.sqrt (squares / ((samples.length - 1 : Nat) : F))⟩

/-- Two-sided 95% critical values of Student's t for 1 to 30 degrees of freedom. -/
def kTable : List F :=
  [12.706, 4.303, 3.182, 2.776, 2.571, 2.447, 2.365, 2.306, 2.262, 2.228, 2.201, 2.179, 2.160, 2.145,
    2.131, 2.120, 2.110, 2.101, 2.093, 2.086, 2.080, 2.074, 2.069, 2.064, 2.060, 2.056, 2.052, 2.048,
    2.045, 2.042]

def kSteps : List (Nat × F) := [(120, 1.980), (60, 2.000), (40, 2.021)]

def tCritical (degrees : Nat) : F :=
  if degrees ≤ (kTable : List F).length then
    kTable.getD (if degrees = 0 then 0 else degrees - 1) 0.0
  else
    match (kSteps : List (Nat × F)).find? fun step => decide (step.1 ≤ degrees) with
    | some step => step.2
    | none => kTable.getLastD 0.0

def combinedDegrees (sampleTerm : F) (n : Nat) (correction : Correction F) : Nat :=
  if correction.variance ≤ 0.0 then n - 1
  else
    let sampleDegrees : F := ((n - 1 : Nat) : F)
    let referenceDegrees : F := (correction.maxDegrees : F)
    let total := sampleTerm + correction.variance
    let spread := sampleTerm * sampleTerm / sampleDegrees +
      correction.variance * correction.variance / referenceDegrees
    let degrees := minDouble sampleDegrees (Doubles.floor (total * total / spread))
    Doubles.toSize (maxDouble 1.0 degrees)

def halfWidthOf (stddev : F) (n : Nat) (correction : Correction F) : F :=
  let sampleTerm := stddev * stddev / (n : F)
  tCritical (combinedDegrees sampleTerm n correction) * Doubles.sqrt (sampleTerm + correction.variance)

def estimate (samples : List F) (correction : Correction F) : Estimate F :=
  let m := moments samples
  if 2 ≤ samples.length then
    ⟨samples.length, m.mean, some m.stddev, some (halfWidthOf m.stddev samples.length correction)⟩
  else ⟨samples.length, m.mean, none, none⟩

structure WorstCase (F : Type) where
  candidate : String
  replicates : Nat
  mean : F
  stddev : F
  halfWidth : F
  correctionStddev : F

def worstCaseOf (candidate : String) (samples : List F) (correction : Correction F) :
    Option (WorstCase F) :=
  if samples.length < 2 then none
  else
    let m := moments samples
    some ⟨candidate, samples.length, m.mean, m.stddev,
      halfWidthOf m.stddev samples.length correction, Doubles.sqrt correction.variance⟩

theorem worstCaseOf_eq_some {candidate : String} {samples : List F} {correction : Correction F}
    {claim : WorstCase F} (h : worstCaseOf candidate samples correction = some claim) :
    claim.candidate = candidate ∧ claim.replicates = samples.length := by
  unfold worstCaseOf at h
  split at h
  · cases h
  · cases h
    exact ⟨rfl, rfl⟩

end LoadForge.Explore
