import LoadForge.Verification.SliceRunner

namespace LoadForge.Verification.Integrity

open Framework (hasSingleBit)

/-- A size that remembers whether any step of its arithmetic overflowed. -/
structure Checked where
  value : UInt64 := 0
  overflowed : Bool := false

def Checked.add (lhs rhs : Checked) : Checked where
  value := lhs.value + rhs.value
  overflowed := decide (2 ^ 64 ≤ lhs.value.toNat + rhs.value.toNat) || lhs.overflowed ||
    rhs.overflowed

def Checked.multiply (lhs rhs : Checked) : Checked where
  value := lhs.value * rhs.value
  overflowed := decide (2 ^ 64 ≤ lhs.value.toNat * rhs.value.toNat) || lhs.overflowed ||
    rhs.overflowed

/-- Rounds up to a multiple of `line`, a power of two. -/
def Checked.roundUp (size : Checked) (line : UInt64) : Checked :=
  let out := size.add ⟨line - 1, false⟩
  { out with value := out.value &&& ~~~(line - 1) }

structure PlanSizes where
  inputBytes : UInt64
  outputBytes : UInt64
  scratchBytes : UInt64
  units : UInt64

/-- A layout with the regions that the units do not lie in, and its whole size. -/
structure PlannedLayout extends Layout where
  lineBytes : UInt64
  inputBytes : UInt64
  outputBytes : UInt64
  regenerated : UInt64
  scratch : UInt64
  scratchBytes : UInt64
  bytes : UInt64
  mappingBytes : UInt64

def planLayout (plan : PlanSizes) (threads : UInt64) (lineBytes : UInt32) :
    Except RunnerError PlannedLayout :=
  if lineBytes < 8 || !hasSingleBit lineBytes.toNat then
    .error ⟨.kConfiguration, "line size " ++ toString lineBytes ++
      " is not a power of two of at least 8 bytes"⟩
  else if plan.units = 0 || plan.inputBytes = 0 || plan.outputBytes = 0 then
    .error ⟨.kConfiguration, "the workload's plan has no unit to hold: " ++ toString plan.units ++
      " units of " ++ toString plan.inputBytes ++ " bytes in and " ++ toString plan.outputBytes ++
      " out"⟩
  else
    let line := lineBytes.toUInt64
    let units : Checked := ⟨plan.units, false⟩
    let inputStride := Checked.roundUp ⟨plan.inputBytes, false⟩ line
    let outputStride := Checked.roundUp ⟨plan.outputBytes, false⟩ line
    let scratchBytes := Checked.multiply ⟨plan.scratchBytes, false⟩ ⟨threads, false⟩
    let outputs := inputStride.multiply units
    let regenerated := outputs.add (outputStride.multiply units)
    let scratch := regenerated.add inputStride
    let bytes := scratch.add (scratchBytes.roundUp line)
    let mapping := bytes.add ⟨line, false⟩
    if mapping.overflowed then
      .error ⟨.kResources, "working set: " ++ toString plan.units ++ " units of " ++
        toString plan.inputBytes ++ " + " ++ toString plan.outputBytes ++ " bytes, with " ++
        toString plan.scratchBytes ++ " bytes of scratch for each of " ++ toString threads ++
        " threads, does not fit in the address space"⟩
    else .ok {
      units := plan.units, inputStride := inputStride.value, outputStride := outputStride.value
      outputs := outputs.value, lineBytes := line, inputBytes := plan.inputBytes
      outputBytes := plan.outputBytes, regenerated := regenerated.value, scratch := scratch.value
      scratchBytes := scratchBytes.value, bytes := bytes.value, mappingBytes := mapping.value }

/-- A line size that a layout can be planned with, and a record can carry. -/
def acceptsLine (lineBytes : UInt32) : Bool :=
  decide (kWordBytes ≤ lineBytes.toUInt64) && hasSingleBit lineBytes.toNat

theorem planLayout_line (plan : PlanSizes) (threads : UInt64) (lineBytes : UInt32)
    (layout : PlannedLayout) (h : planLayout plan threads lineBytes = .ok layout) :
    acceptsLine lineBytes = true := by
  rw [planLayout] at h
  by_cases hline : (decide (lineBytes < 8) || !hasSingleBit lineBytes.toNat) = true
  · rw [if_pos hline] at h
    cases h
  · simp only [Bool.or_eq_true, decide_eq_true_eq, Bool.not_eq_true', not_or, UInt32.not_lt,
      Bool.not_eq_false] at hline
    have hword : kWordBytes ≤ lineBytes.toUInt64 := by
      rw [UInt64.le_iff_toNat_le, UInt32.toNat_toUInt64]
      exact hline.1
    rw [acceptsLine, hline.2, decide_eq_true hword]
    rfl

end LoadForge.Verification.Integrity
