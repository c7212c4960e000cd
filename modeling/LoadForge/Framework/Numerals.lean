import Mathlib.Data.Nat.Digits.Lemmas

namespace LoadForge.Framework

open List

section Decimal

theorem isDigit_range {c : Char} (hc : c.isDigit) : 48 ≤ c.toNat ∧ c.toNat ≤ 57 := by
  rw [Char.isDigit, Bool.and_eq_true, decide_eq_true_eq, decide_eq_true_eq] at hc
  exact hc

theorem isDigit_toNat {c : Char} (hc : c.isDigit) :
    c.toNat - '0'.toNat < 10 ∧ (c.toNat - '0'.toNat).digitChar = c := by
  obtain ⟨hlow, hhigh⟩ := isDigit_range hc
  have hzero : '0'.toNat = 48 := rfl
  refine ⟨by omega, ?_⟩
  have hall : ∀ n, n < 10 → n.digitChar = Char.ofNat (48 + n) := by decide
  rw [hall _ (by omega), hzero, Nat.add_sub_cancel' hlow, Char.ofNat_toNat]

theorem toDigits_ofDigitChars (digits : List Char) (hd : ∀ c ∈ digits, c.isDigit)
    (hne : digits ≠ []) (hlead : digits.length = 1 ∨ digits.head? ≠ some '0') :
    Nat.toDigits 10 (Nat.ofDigitChars 10 digits 0) = digits := by
  induction digits using reverseRecOn with
  | nil => exact absurd rfl hne
  | append_singleton digits c ih =>
    obtain ⟨hlt, hchar⟩ := isDigit_toNat (hd c (by simp))
    rw [Nat.ofDigitChars_append, Nat.ofDigitChars_cons, Nat.ofDigitChars_nil]
    by_cases hempty : digits = []
    · subst hempty
      rw [Nat.ofDigitChars_nil, Nat.mul_zero, Nat.zero_add, Nat.toDigits_of_lt_base hlt, hchar,
        nil_append]
    · have hlead' : digits.head? ≠ some '0' := by
        obtain ⟨d, rest, rfl⟩ := exists_cons_of_ne_nil hempty
        obtain hlen | hhead := hlead
        · simp at hlen
        · exact hhead
      have hrest := ih (fun d hm => hd d (mem_append_left _ hm)) hempty (.inr hlead')
      have hpos : 0 < Nat.ofDigitChars 10 digits 0 := by
        apply Nat.pos_of_ne_zero
        intro hzero
        rw [hzero, Nat.toDigits_zero] at hrest
        rw [← hrest] at hlead'
        exact hlead' rfl
      rw [← Nat.toDigits_append_toDigits (by decide) hpos hlt, hrest,
        Nat.toDigits_of_lt_base hlt, hchar]

theorem toDigits_head {n : Nat} (hn : 0 < n) : (Nat.toDigits 10 n).head? ≠ some '0' := by
  induction n using Nat.strong_induction_on with
  | h n ih =>
    by_cases hsmall : n < 10
    · have hall : ∀ n, n < 10 → 0 < n → some n.digitChar ≠ some '0' := by decide
      rw [Nat.toDigits_of_lt_base hsmall]
      exact hall n hsmall hn
    · have hlt : n / 10 < n := Nat.div_lt_self hn (by decide)
      have hpos : 0 < n / 10 := by omega
      rw [Nat.toDigits_of_base_le (by decide) (Nat.not_lt.mp hsmall),
        head?_append_of_ne_nil _ Nat.toDigits_ne_nil]
      exact ih (n / 10) hlt hpos

theorem toDigits_lead (n : Nat) :
    (Nat.toDigits 10 n).length = 1 ∨ (Nat.toDigits 10 n).head? ≠ some '0' := by
  cases n with
  | zero => exact .inl rfl
  | succ n => exact .inr (toDigits_head n.succ_pos)

end Decimal

section Places

/-- The digits of a number at its lowest places, the lowest first. -/
def places (base width n : Nat) : List Nat :=
  (List.range width).map fun place => n / base ^ place % base

theorem ofDigits_places (base width n : Nat) :
    Nat.ofDigits base (places base width n) = n % base ^ width := by
  induction width with
  | zero => simp [places, Nat.mod_one]
  | succ width ih =>
    rw [places, range_succ, map_append, Nat.ofDigits_append, length_map,
      length_range, map_singleton, Nat.ofDigits_singleton]
    rw [places] at ih
    rw [ih, Nat.pow_succ, Nat.mod_mul]

theorem places_lt {base : Nat} (hb : 0 < base) (width n : Nat) :
    ∀ digit ∈ places base width n, digit < base := by
  intro digit hdigit
  obtain ⟨place, -, rfl⟩ := mem_map.mp hdigit
  exact Nat.mod_lt _ hb

theorem places_ofDigits {base : Nat} (hb : 1 < base) (digits : List Nat)
    (hd : ∀ digit ∈ digits, digit < base) :
    places base digits.length (Nat.ofDigits base digits) = digits := by
  have hpos : 0 < base := Nat.lt_of_succ_lt hb
  apply Nat.ofDigits_inj_of_len_eq hb
  · rw [places, length_map, length_range]
  · exact places_lt hpos _ _
  · exact hd
  · rw [ofDigits_places, Nat.mod_eq_of_lt (Nat.ofDigits_lt_base_pow_length hb hd)]

end Places

end LoadForge.Framework
