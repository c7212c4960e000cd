import LoadForge.Framework.Numerals
import LoadForge.Verification.Golden

namespace LoadForge.Verification.Golden

open LoadForge.Core Framework List

section Lines

/-- The lines of a text that are neither empty nor comments. -/
def contentLines (text : List Char) : List String :=
  ((text.splitOn '\n').filter isContent).map String.ofList

theorem takeLine_no_newline (text : List Char) : '\n' ∉ (takeLine text).1 := by
  intro hmem
  have hother := mem_takeWhile_imp hmem
  simp at hother

theorem takeLine_of_mem {text : List Char} (h : '\n' ∈ text) :
    text = (takeLine text).1 ++ '\n' :: (takeLine text).2 := by
  have hwhole := takeWhile_append_dropWhile (p := (· != '\n')) (l := text)
  have hne : text.dropWhile (· != '\n') ≠ [] := by
    intro hnil
    have hother := dropWhile_eq_nil_iff.mp hnil '\n' h
    simp at hother
  obtain ⟨c, rest, hdrop⟩ := exists_cons_of_ne_nil hne
  have hhead := head_dropWhile_not (p := (· != '\n')) (l := text) hne
  have hc : c = '\n' := by simpa [hdrop] using hhead
  subst hc
  rw [takeLine, hdrop, drop_one, tail_cons, ← hdrop, hwhole]

theorem takeLine_of_not_mem {text : List Char} (h : '\n' ∉ text) : takeLine text = (text, []) := by
  have hall : ∀ c ∈ text, (c != '\n') = true := by
    intro c hc
    exact bne_iff_ne.mpr fun hsame => h (hsame ▸ hc)
  rw [takeLine, takeWhile_eq_self_iff.mpr hall, dropWhile_eq_nil_iff.mpr hall, drop_nil]

theorem contentLines_takeLine (text : List Char) :
    contentLines text =
      (if isContent (takeLine text).1 then [String.ofList (takeLine text).1] else []) ++
        contentLines (takeLine text).2 := by
  by_cases hmem : '\n' ∈ text
  · have hsplit : text.splitOn '\n' = (takeLine text).1 :: (takeLine text).2.splitOn '\n' := by
      conv_lhs => rw [takeLine_of_mem hmem]
      exact splitOn_append_cons_self_of_not_mem (takeLine_no_newline text) _
    rw [contentLines, hsplit, filter_cons]
    split_ifs <;> rfl
  · rw [takeLine_of_not_mem hmem, contentLines, splitOn_eq_singleton hmem, filter_cons]
    split_ifs <;> rfl

theorem contentLines_join (lines : List String) (hl : ∀ line ∈ lines, '\n' ∉ line.toList) :
    contentLines (String.join (lines.map (· ++ "\n"))).toList =
      lines.filter fun line => isContent line.toList := by
  induction lines with
  | nil => rfl
  | cons line lines ih =>
    have hrest := ih fun other hother => hl other (by simp [hother])
    have htext : (String.join ((line :: lines).map (· ++ "\n"))).toList =
        line.toList ++ '\n' :: (String.join (lines.map (· ++ "\n"))).toList := by
      simp [String.toList_join]
    rw [contentLines] at hrest ⊢
    rw [htext, splitOn_append_cons_self_of_not_mem (hl line (by simp)),
      filter_cons, filter_cons, ← hrest]
    split_ifs
    · simp
    · rfl

end Lines

section Numbers

theorem decimalOf_eq_some {token : String} {limit n : UInt64} :
    decimalOf token limit = some n ↔ token = toString n ∧ n ≤ limit := by
  have hshow : (toString n).toList = Nat.toDigits 10 n.toNat := Nat.toList_repr
  constructor
  · intro h
    unfold decimalOf at h
    split at h
    · rename_i value hread
      split_ifs at h with hgood
      cases h
      obtain ⟨hne, hdigits, hvalue⟩ := fromChars_eq_ok.mp hread
      have htoken := toDigits_ofDigitChars token.toList hdigits hne hgood.1
      rw [← hvalue, ← hshow] at htoken
      exact ⟨String.toList_inj.mp htoken.symm, hgood.2⟩
    · cases h
  · rintro ⟨rfl, hle⟩
    rw [decimalOf, hshow, fromChars_toDigits]
    exact if_pos ⟨toDigits_lead n.toNat, hle⟩

theorem hexDigit_value :
    ∀ n, n < 16 → isLowerHex (hexDigit n) = true ∧ hexValue (hexDigit n) = n := by
  decide

theorem hexValue_digit {c : Char} (hc : isLowerHex c = true) :
    hexValue c < 16 ∧ hexDigit (hexValue c) = c := by
  have hdigits : ∀ n, n < 10 → hexDigit n = Char.ofNat (48 + n) := by decide
  have hletters : ∀ n, n < 6 → hexDigit (10 + n) = Char.ofNat (97 + n) := by decide
  simp only [isLowerHex, Bool.or_eq_true, Bool.and_eq_true, decide_eq_true_eq] at hc
  rw [hexValue]
  obtain ⟨hlow, hhigh⟩ | ⟨hlow, hhigh⟩ := hc
  · have hlow' : 48 ≤ c.toNat := hlow
    have hhigh' : c.toNat ≤ 57 := hhigh
    rw [if_pos hhigh]
    refine ⟨by omega, ?_⟩
    rw [hdigits _ (by omega), Nat.add_sub_cancel' hlow', Char.ofNat_toNat]
  · have hlow' : 97 ≤ c.toNat := hlow
    have hhigh' : c.toNat ≤ 102 := hhigh
    have hletter : ¬ c ≤ '9' := by
      intro hle
      have hle' : c.toNat ≤ 57 := hle
      omega
    rw [if_neg hletter]
    refine ⟨by omega, ?_⟩
    have hsplit : c.toNat - 87 = 10 + (c.toNat - 97) := by omega
    rw [hsplit, hletters _ (by omega), Nat.add_sub_cancel' hlow', Char.ofNat_toNat]

theorem foldl_hexValue (digits : List Char) :
    digits.foldl (fun value c => 16 * value + hexValue c) 0 =
      Nat.ofDigits 16 (digits.map hexValue).reverse := by
  induction digits using reverseRecOn with
  | nil => rfl
  | append_singleton digits c ih =>
    rw [foldl_append, ih, map_append, reverse_append, map_singleton,
      reverse_singleton, singleton_append, Nat.ofDigits_cons, foldl_cons,
      foldl_nil, Nat.add_comm]

theorem hex16_toList (value : UInt64) :
    (hex16 value).toList =
      "0x".toList ++ (places 16 kHexDigits value.toNat).reverse.map hexDigit := by
  rw [hex16, String.toList_append, places, ← map_reverse, map_map]
  congr 1
  rw [String.toList_ofList]
  apply map_congr_left
  intro digit hdigit
  have hlt : digit < 16 := mem_range.mp (mem_reverse.mp hdigit)
  have hsize : digit < UInt64.size := Nat.lt_trans hlt (by decide)
  have hplace : (4 * UInt64.ofNat digit).toNat % 64 = 4 * digit := by
    rw [UInt64.toNat_mul, UInt64.toNat_ofNat_of_lt' hsize]
    simp
    omega
  have hmask : (0x0F : UInt64).toNat = 2 ^ 4 - 1 := rfl
  rw [Function.comp_apply, UInt64.toNat_and, UInt64.toNat_shiftRight, hplace, hmask,
    Nat.and_two_pow_sub_one_eq_mod, Nat.shiftRight_eq_div_pow, Nat.pow_mul]

theorem hex16_length (value : UInt64) : (hex16 value).toList.length = 2 + kHexDigits := by
  rw [hex16_toList, length_append, length_map, length_reverse, places, length_map, length_range]
  rfl

theorem hexValues_of_hexDigits (ns : List Nat) (hn : ∀ n ∈ ns, n < 16) :
    (ns.map hexDigit).map hexValue = ns ∧ (ns.map hexDigit).all isLowerHex = true := by
  induction ns with
  | nil => exact ⟨rfl, rfl⟩
  | cons n ns ih =>
    obtain ⟨hhex, hvalue⟩ := hexDigit_value n (hn n (by simp))
    obtain ⟨hvalues, hall⟩ := ih fun m hm => hn m (by simp [hm])
    rw [map_cons, map_cons, hvalue, hvalues, all_cons, hhex, hall]
    exact ⟨rfl, rfl⟩

theorem hexDigits_of_hexValues (digits : List Char) (hd : digits.all isLowerHex = true) :
    (digits.map hexValue).map hexDigit = digits ∧ ∀ n ∈ digits.map hexValue, n < 16 := by
  induction digits with
  | nil => exact ⟨rfl, nofun⟩
  | cons c digits ih =>
    rw [all_cons, Bool.and_eq_true] at hd
    obtain ⟨hlt, hdigit⟩ := hexValue_digit hd.1
    obtain ⟨hdigits, hall⟩ := ih hd.2
    rw [map_cons, map_cons, hdigit, hdigits]
    exact ⟨rfl, forall_mem_cons.mpr ⟨hlt, hall⟩⟩

theorem hexOf_hex16 (value : UInt64) : hexOf (hex16 value) = some value := by
  have hlow : ∀ n ∈ (places 16 kHexDigits value.toNat).reverse, n < 16 := fun n hn =>
    places_lt (by decide) _ _ n (mem_reverse.mp hn)
  obtain ⟨hback, hall⟩ := hexValues_of_hexDigits _ hlow
  have hdrop : (hex16 value).toList.drop 2 =
      (places 16 kHexDigits value.toNat).reverse.map hexDigit := by
    rw [hex16_toList]
    rfl
  have hmark : "0x".toList <+: (hex16 value).toList := by
    rw [hex16_toList]
    exact prefix_append _ _
  have hwidth : 16 ^ kHexDigits = 2 ^ 64 := rfl
  rw [hexOf, hdrop, if_pos ⟨hex16_length value, hmark, hall⟩, foldl_hexValue, hback,
    reverse_reverse, ofDigits_places, hwidth, Nat.mod_eq_of_lt value.toNat_lt,
    UInt64.ofNat_toNat]

theorem hexOf_eq_some {token : String} {value : UInt64} :
    hexOf token = some value ↔ token = hex16 value := by
  constructor
  · intro h
    unfold hexOf at h
    split_ifs at h with hshaped
    have hread := Option.some.inj h
    obtain ⟨hlength, ⟨digits, hdigits⟩, hall⟩ := hshaped
    have hdrop : token.toList.drop 2 = digits := by rw [← hdigits]; rfl
    rw [hdrop] at hread hall
    rw [← hdigits, length_append] at hlength
    have hwidth : (digits.map hexValue).reverse.length = kHexDigits := by
      rw [length_reverse, length_map]
      exact Nat.add_left_cancel hlength
    obtain ⟨hback, hvalues⟩ := hexDigits_of_hexValues digits hall
    have hlow : ∀ n ∈ (digits.map hexValue).reverse, n < 16 := fun n hn =>
      hvalues n (mem_reverse.mp hn)
    have hplaces := places_ofDigits (by decide) _ hlow
    have hbound := Nat.ofDigits_lt_base_pow_length (by decide) hlow
    rw [hwidth] at hplaces hbound
    apply String.toList_inj.mp
    rw [hex16_toList, ← hread, foldl_hexValue, UInt64.toNat_ofNat_of_lt' hbound, hplaces,
      reverse_reverse, hback, hdigits]
  · rintro rfl
    exact hexOf_hex16 value

end Numbers

end LoadForge.Verification.Golden
