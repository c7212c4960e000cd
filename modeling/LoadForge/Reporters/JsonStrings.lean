import LoadForge.Framework.JsonReading
import LoadForge.Reporters.JsonText

namespace LoadForge.Reporters

open Framework Results List

section Sequences

variable {lead : UInt8} {form : Form}

structure Form.Follows (form : Form) (lead : UInt8) (tail : List UInt8) : Prop where
  length : tail.length + 1 = form.length
  second : ∃ b, tail.head? = some b ∧ form.secondLow.toNat ≤ b.toNat ∧
    b.toNat ≤ (form.secondHighFor lead).toNat
  others : ∀ b ∈ tail.drop 1, 128 ≤ b.toNat ∧ b.toNat ≤ 191

end Sequences

section Strings

open Json

end Strings

end LoadForge.Reporters
