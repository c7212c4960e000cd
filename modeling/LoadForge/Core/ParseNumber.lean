import Mathlib.Data.List.TakeWhile
import Mathlib.Tactic.Ring

namespace LoadForge.Core

inductive ParseError
  | Empty | NegativeValue | InvalidNumber | OutOfRange
  deriving DecidableEq

structure NumberAndSuffix where
  value : UInt64
  suffix : List Char
  deriving DecidableEq

def isSpace (c : Char) : Bool := c == ' ' || c == '\t'

def trim (text : List Char) : List Char :=
  ((text.dropWhile isSpace).reverse.dropWhile isSpace).reverse

/-- The digits a text begins with, read as a 64-bit number, and the rest of it. -/
def fromChars (text : List Char) : Except ParseError NumberAndSuffix :=
  let digits := text.takeWhile Char.isDigit
  let value := Nat.ofDigitChars 10 digits 0
  if digits = [] then .error .InvalidNumber
  else if 2 ^ 64 ≤ value then .error .OutOfRange
  else .ok ⟨UInt64.ofNat value, text.dropWhile Char.isDigit⟩

def splitNumberAndSuffix (text : String) : Except ParseError NumberAndSuffix :=
  match trim text.toList with
  | [] => .error .Empty
  | c :: cs => if c = '-' then .error .NegativeValue else fromChars (c :: cs)

theorem not_isSpace_of_isDigit (c : Char) (hc : c.isDigit) : isSpace c = false := by
  have hblank : c ≠ ' ' := by
    rintro rfl
    exact absurd hc (by decide)
  have htab : c ≠ '\t' := by
    rintro rfl
    exact absurd hc (by decide)
  simp [isSpace, hblank, htab]

theorem dropWhile_digits (digits : List Char) (hd : ∀ c ∈ digits, c.isDigit) :
    digits.dropWhile isSpace = digits := by
  cases digits with
  | nil => rfl
  | cons c cs =>
    have hc := not_isSpace_of_isDigit c (hd c (by simp))
    rw [List.dropWhile_cons_of_neg (by simp [hc])]

theorem trim_digits (digits : List Char) (hd : ∀ c ∈ digits, c.isDigit) : trim digits = digits := by
  have hreverse : ∀ c ∈ digits.reverse, c.isDigit := fun c hc => hd c (List.mem_reverse.mp hc)
  rw [trim, dropWhile_digits digits hd, dropWhile_digits _ hreverse, List.reverse_reverse]

theorem fromChars_eq_ok {text : List Char} {value : UInt64} :
    fromChars text = .ok ⟨value, []⟩ ↔
      text ≠ [] ∧ (∀ c ∈ text, c.isDigit) ∧ value.toNat = Nat.ofDigitChars 10 text 0 := by
  rw [fromChars]
  constructor
  · intro h
    split_ifs at h with hempty hrange
    injection h with hread
    injection hread with hvalue hsuffix
    have hdigits : ∀ c ∈ text, c.isDigit := List.dropWhile_eq_nil_iff.mp hsuffix
    rw [List.takeWhile_eq_self_iff.mpr hdigits] at hempty hrange hvalue
    refine ⟨hempty, hdigits, ?_⟩
    rw [← hvalue, UInt64.toNat_ofNat_of_lt' (Nat.not_le.mp hrange)]
  · rintro ⟨hne, hdigits, hvalue⟩
    rw [List.takeWhile_eq_self_iff.mpr hdigits, List.dropWhile_eq_nil_iff.mpr hdigits, if_neg hne,
      ← hvalue, if_neg (Nat.not_le.mpr value.toNat_lt), UInt64.ofNat_toNat]

theorem fromChars_toDigits (n : UInt64) : fromChars (Nat.toDigits 10 n.toNat) = .ok ⟨n, []⟩ := by
  refine fromChars_eq_ok.mpr ⟨Nat.toDigits_ne_nil, ?_, Nat.ofDigitChars_ten_toDigits.symm⟩
  intro c hc
  exact Nat.isDigit_of_mem_toDigits (by decide) (by decide) hc

theorem splitNumberAndSuffix_repr (n : Nat) (hn : n < 2 ^ 64) :
    splitNumberAndSuffix n.repr = .ok ⟨UInt64.ofNat n, []⟩ := by
  have hdigits : ∀ c ∈ Nat.toDigits 10 n, c.isDigit := fun c hc =>
    Nat.isDigit_of_mem_toDigits (by decide) (by decide) hc
  have hread := fromChars_toDigits (UInt64.ofNat n)
  rw [UInt64.toNat_ofNat_of_lt' hn] at hread
  rw [splitNumberAndSuffix, Nat.toList_repr, trim_digits _ hdigits]
  cases hcs : Nat.toDigits 10 n with
  | nil => exact absurd hcs Nat.toDigits_ne_nil
  | cons c cs =>
    have hminus : c ≠ '-' := by
      intro hc
      have hdigit := hdigits c (by rw [hcs]; exact (by simp))
      rw [hc] at hdigit
      exact absurd hdigit (by decide)
    rw [hcs] at hread
    simp only [if_neg hminus]
    exact hread

end LoadForge.Core
