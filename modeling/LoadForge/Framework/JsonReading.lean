import LoadForge.Framework.Json
import LoadForge.Framework.Numerals
import LoadForge.Framework.Parsing

namespace LoadForge.Framework.Json

open List Option

section Numerals

def Ends (rest : List UInt8) : Prop :=
  ∀ b, rest.head? = some b → isDigit b = false ∧ b ≠ 0x2E ∧ b ≠ 0x65 ∧ b ≠ 0x45

structure Exponent where
  mark : UInt8
  sign : Option UInt8
  digits : List UInt8
  mark_eq : mark = 0x65 ∨ mark = 0x45
  sign_eq : sign = none ∨ sign = some 0x2B ∨ sign = some 0x2D
  digits_ne : digits ≠ []
  digits_all : ∀ b ∈ digits, isDigit b = true

def Exponent.text (e : Exponent) : List UInt8 := e.mark :: (e.sign.toList ++ e.digits)

def Exponent.value (e : Exponent) : Int :=
  if e.sign = some 0x2D then -(digitsValue e.digits : Int) else digitsValue e.digits

structure Numeral where
  negative : Bool
  whole : List UInt8
  fraction : List UInt8
  exponent : Option Exponent
  whole_ne : whole ≠ []
  whole_all : ∀ b ∈ whole, isDigit b = true
  whole_lead : ¬ (1 < whole.length ∧ whole.head? = some 0x30)
  fraction_all : ∀ b ∈ fraction, isDigit b = true

namespace Numeral

def signText (n : Numeral) : List UInt8 := if n.negative then [0x2D] else []

def fractionText (n : Numeral) : List UInt8 := if n.fraction = [] then [] else 0x2E :: n.fraction

def exponentText (n : Numeral) : List UInt8 := (n.exponent.map Exponent.text).getD []

def text (n : Numeral) : List UInt8 :=
  n.signText ++ (n.whole ++ (n.fractionText ++ n.exponentText))

def value (n : Numeral) : ℚ :=
  decimalValue n.negative n.whole n.fraction ((n.exponent.map Exponent.value).getD 0)

end Numeral

theorem parseDigits_append (digits rest : List UInt8) (hne : digits ≠ [])
    (hd : ∀ b ∈ digits, isDigit b = true)
    (hrest : ∀ b, rest.head? = some b → isDigit b = false) :
    parseDigits (digits ++ rest) = some (digits, rest) := by
  obtain ⟨htake, hdrop⟩ := span_append hd hrest
  rw [parseDigits, htake, hdrop, if_neg hne]

theorem isDigit_ne {b : UInt8} (hb : isDigit b = true) :
    b ≠ 0x2D ∧ b ≠ 0x2B ∧ b ≠ 0x2E ∧ b ≠ 0x65 ∧ b ≠ 0x45 := by
  refine ⟨?_, ?_, ?_, ?_, ?_⟩ <;>
    · intro hsame
      rw [hsame] at hb
      exact absurd hb (by decide)

theorem parseSign_digits (sign : UInt8) (digits rest : List UInt8) (hne : digits ≠ [])
    (hsign : ∀ b ∈ digits, b ≠ sign) :
    parseSign sign (digits ++ rest) = (false, digits ++ rest) := by
  cases digits with
  | nil => exact absurd rfl hne
  | cons b digits =>
    rw [cons_append, parseSign, if_neg (hsign b (by simp))]

theorem parsePower_text (e : Exponent) (rest : List UInt8) (hrest : Ends rest) :
    parsePower (e.sign.toList ++ (e.digits ++ rest)) = some (e.value, rest) := by
  have hdigits := parseDigits_append e.digits rest e.digits_ne e.digits_all
    fun b hb => (hrest b hb).1
  have hminus : parseSign 0x2D (e.digits ++ rest) = (false, e.digits ++ rest) :=
    parseSign_digits _ _ _ e.digits_ne fun b hb => (isDigit_ne (e.digits_all b hb)).1
  have hplus : parseSign 0x2B (e.digits ++ rest) = (false, e.digits ++ rest) :=
    parseSign_digits _ _ _ e.digits_ne fun b hb => (isDigit_ne (e.digits_all b hb)).2.1
  obtain hsign | hsign | hsign := e.sign_eq
  · rw [parsePower, hsign, toList_none, nil_append, hminus, hplus, hdigits, Exponent.value, hsign]
    rfl
  · rw [parsePower, hsign, Exponent.value, hsign]
    change (parseDigits (e.digits ++ rest)).map _ = _
    rw [hdigits]
    rfl
  · rw [parsePower, hsign, Exponent.value, hsign]
    change (parseDigits (e.digits ++ rest)).map _ = _
    rw [hdigits]
    rfl

variable (n : Numeral) (rest : List UInt8)

theorem parseExponent_text (hrest : Ends rest) :
    parseExponent (n.exponentText ++ rest) =
      some ((n.exponent.map Exponent.value).getD 0, rest) := by
  rw [Numeral.exponentText]
  cases n.exponent with
  | none =>
    change parseExponent rest = some (0, rest)
    cases rest with
    | nil => rfl
    | cons b rest =>
      obtain ⟨-, -, hlower, hupper⟩ := hrest b rfl
      rw [parseExponent, if_neg (not_or.mpr ⟨hlower, hupper⟩)]
  | some e =>
    change parseExponent (e.mark :: (e.sign.toList ++ e.digits ++ rest)) = some (e.value, rest)
    rw [parseExponent, if_pos e.mark_eq, append_assoc, parsePower_text e rest hrest]

theorem exponent_head (hrest : Ends rest) (b : UInt8)
    (hb : (n.exponentText ++ rest).head? = some b) : isDigit b = false ∧ b ≠ 0x2E := by
  rw [Numeral.exponentText] at hb
  cases he : n.exponent with
  | none =>
    rw [he] at hb
    exact ⟨(hrest b hb).1, (hrest b hb).2.1⟩
  | some e =>
    rw [he] at hb
    have hmark : e.mark = b := some.inj hb
    rw [← hmark]
    obtain hmark | hmark := e.mark_eq
    · rw [hmark]
      decide
    · rw [hmark]
      decide

theorem parseFraction_text (hrest : Ends rest) :
    parseFraction (n.fractionText ++ (n.exponentText ++ rest)) =
      some (n.fraction, n.exponentText ++ rest) := by
  have hhead := exponent_head n rest hrest
  rw [Numeral.fractionText]
  by_cases hempty : n.fraction = []
  · rw [if_pos hempty, nil_append, hempty]
    cases htail : n.exponentText ++ rest with
    | nil => rfl
    | cons b tail =>
      rw [htail] at hhead
      rw [parseFraction, if_neg (hhead b rfl).2]
  · rw [if_neg hempty, cons_append, parseFraction, if_pos rfl]
    exact parseDigits_append _ _ hempty n.fraction_all fun b hb => (hhead b hb).1

theorem fraction_head (hrest : Ends rest) (b : UInt8)
    (hb : (n.fractionText ++ (n.exponentText ++ rest)).head? = some b) : isDigit b = false := by
  rw [Numeral.fractionText] at hb
  split_ifs at hb with hempty
  · exact (exponent_head n rest hrest b hb).1
  · have hpoint : 0x2E = b := some.inj hb
    rw [← hpoint]
    decide

theorem parseSign_text :
    parseSign 0x2D (n.signText ++ (n.whole ++ rest)) = (n.negative, n.whole ++ rest) := by
  have hbare : parseSign 0x2D (n.whole ++ rest) = (false, n.whole ++ rest) :=
    parseSign_digits _ _ _ n.whole_ne fun b hb => (isDigit_ne (n.whole_all b hb)).1
  rw [Numeral.signText]
  cases n.negative with
  | false => exact hbare
  | true => rfl

theorem parseNumber_text (hrest : Ends rest) :
    parseNumber (n.text ++ rest) = some (n.value, rest) := by
  have htext : n.text ++ rest =
      n.signText ++ (n.whole ++ (n.fractionText ++ (n.exponentText ++ rest))) := by
    simp [Numeral.text]
  have hwhole := parseDigits_append n.whole _ n.whole_ne n.whole_all (fraction_head n rest hrest)
  rw [parseNumber, htext, parseSign_text, hwhole, bind_eq_bind, bind_some]
  dsimp only
  rw [if_neg n.whole_lead, parseFraction_text n rest hrest, bind_eq_bind, bind_some]
  dsimp only
  rw [parseExponent_text n rest hrest]
  rfl

def digitBytes (n : Nat) : List UInt8 := (Nat.toDigits 10 n).map fun c => UInt8.ofNat c.toNat

theorem digit_byte {c : Char} (hc : c.isDigit) :
    (UInt8.ofNat c.toNat).toNat = c.toNat ∧ isDigit (UInt8.ofNat c.toNat) = true := by
  obtain ⟨hlow, hhigh⟩ := isDigit_range hc
  have hnat : (UInt8.ofNat c.toNat).toNat = c.toNat := by
    rw [UInt8.toNat_ofNat']
    omega
  refine ⟨hnat, ?_⟩
  rw [isDigit, Bool.and_eq_true, decide_eq_true_eq, decide_eq_true_eq, UInt8.le_iff_toNat_le,
    UInt8.le_iff_toNat_le, hnat]
  exact ⟨hlow, hhigh⟩

theorem isDigit_of_toDigits {n : Nat} {c : Char} (hc : c ∈ Nat.toDigits 10 n) : c.isDigit :=
  Nat.isDigit_of_mem_toDigits (by decide) (by decide) hc

theorem digitsValue_map (digits : List Char) (hd : ∀ c ∈ digits, c.isDigit) :
    digitsValue (digits.map fun c => UInt8.ofNat c.toNat) = Nat.ofDigitChars 10 digits 0 := by
  rw [digitsValue, foldl_map, Nat.ofDigitChars_eq_foldl]
  apply foldl_ext
  intro value c hc
  rw [(digit_byte (hd c hc)).1]
  rfl

theorem digitsValue_digitBytes (n : Nat) : digitsValue (digitBytes n) = n := by
  rw [digitBytes, digitsValue_map _ fun _ => isDigit_of_toDigits, Nat.ofDigitChars_ten_toDigits]

theorem digitBytes_lead (n : Nat) :
    ¬ (1 < (digitBytes n).length ∧ (digitBytes n).head? = some 0x30) := by
  rw [digitBytes, length_map, head?_map]
  intro ⟨hlong, hzero⟩
  obtain hone | hhead := toDigits_lead n
  · omega
  · cases hdigits : Nat.toDigits 10 n with
    | nil => exact absurd hdigits Nat.toDigits_ne_nil
    | cons c cs =>
      have hmem : c ∈ Nat.toDigits 10 n := by
        rw [hdigits]
        exact (by simp)
      have hdigit := isDigit_of_toDigits hmem
      rw [hdigits] at hhead hzero
      have hbyte : UInt8.ofNat c.toNat = 0x30 := some.inj hzero
      have hnat : c.toNat = 48 := by
        rw [← (digit_byte hdigit).1, hbyte]
        rfl
      apply hhead
      rw [head?_cons, ← Char.ofNat_toNat c, hnat]

def Numeral.ofInt (n : Int) : Numeral where
  negative := decide (n < 0)
  whole := digitBytes n.natAbs
  fraction := []
  exponent := none
  whole_ne := by
    rw [digitBytes, ne_eq, List.map_eq_nil_iff]
    exact Nat.toDigits_ne_nil
  whole_all := by
    intro b hb
    obtain ⟨c, hc, rfl⟩ := List.mem_map.mp hb
    exact (digit_byte (isDigit_of_toDigits hc)).2
  whole_lead := digitBytes_lead n.natAbs
  fraction_all := nofun

theorem bytesOf_repr (n : Nat) : bytesOf n.repr = digitBytes n := by
  rw [bytesOf, Nat.toList_repr, digitBytes, map_eq_flatMap]
  apply flatMap_congr
  intro c hc
  have hrange := isDigit_range (isDigit_of_toDigits hc)
  apply utf8EncodeChar_ascii
  omega

theorem bytesOf_toString (n : Int) :
    bytesOf (toString n) = (if n < 0 then [0x2D] else []) ++ digitBytes n.natAbs := by
  cases n with
  | ofNat n =>
    have hneg : ¬ Int.ofNat n < 0 := by
      rw [Int.ofNat_eq_natCast]
      omega
    rw [if_neg hneg, nil_append]
    exact bytesOf_repr n
  | negSucc n =>
    have hminus : bytesOf (toString (Int.negSucc n)) = [0x2D] ++ bytesOf (n + 1).repr := by
      change bytesOf ("-" ++ (n + 1).repr) = _
      rw [bytesOf, String.toList_append, flatMap_append]
      rfl
    rw [if_pos (Int.negSucc_lt_zero n), hminus, bytesOf_repr, Int.natAbs_negSucc]

end Numerals

section Strings

/-- The bytes are a way to write the character inside of a string. -/
structure WritesChar (bytes : List UInt8) (c : Char) : Prop where
  first : ∃ b tail, bytes = b :: tail ∧ b ≠ quote
  wellFormed : ∃ cs, bytes = utf8 cs
  reads : ∀ rest, parseChar (bytes ++ rest) = some (c, rest)

inductive WritesChars : List UInt8 → List Char → Prop
  | nil : WritesChars [] []
  | cons {bytes more : List UInt8} {c : Char} {cs : List Char} :
    WritesChar bytes c → WritesChars more cs → WritesChars (bytes ++ more) (c :: cs)

theorem plain_first (c : Char) (hlow : 0x20 ≤ c.toNat) (hquote : c ≠ '"')
    (hbackslash : c ≠ '\\') : ∃ b tail, String.utf8EncodeChar c = b :: tail ∧
      0x20 ≤ b.toNat ∧ b ≠ quote ∧ b ≠ backslash := by
  by_cases hascii : c.toNat < 128
  · have hnat : (UInt8.ofNat c.toNat).toNat = c.toNat := by
      rw [UInt8.toNat_ofNat']
      omega
    refine ⟨UInt8.ofNat c.toNat, [], utf8EncodeChar_ascii c hascii, by omega, ?_, ?_⟩
    · intro hsame
      have hvalue : c.toNat = 0x22 := by rw [← hnat, hsame]; rfl
      exact hquote (by rw [← Char.ofNat_toNat c, hvalue])
    · intro hsame
      have hvalue : c.toNat = 0x5C := by rw [← hnat, hsame]; rfl
      exact hbackslash (by rw [← Char.ofNat_toNat c, hvalue])
  · obtain ⟨b, tail, hbytes, hb⟩ := utf8EncodeChar_beyond c hascii
    refine ⟨b, tail, hbytes, by omega, ?_, ?_⟩
    · intro hsame
      rw [hsame] at hb
      exact absurd hb (by decide)
    · intro hsame
      rw [hsame] at hb
      exact absurd hb (by decide)

theorem WritesChar.plain (c : Char) (hlow : 0x20 ≤ c.toNat) (hquote : c ≠ '"')
    (hbackslash : c ≠ '\\') : WritesChar (String.utf8EncodeChar c) c := by
  obtain ⟨b, tail, hbytes, hfirst⟩ := plain_first c hlow hquote hbackslash
  refine ⟨⟨b, tail, hbytes, hfirst.2.1⟩, ⟨[c], by rw [utf8_cons, utf8_nil, append_nil]⟩, ?_⟩
  intro rest
  have hhead := headChar_append c rest
  have hdrop : (String.utf8EncodeChar c ++ rest).drop c.utf8Size = rest :=
    drop_left' (String.length_utf8EncodeChar c)
  have hcontrol : ¬ b < 0x20 := by
    rw [UInt8.lt_iff_toNat_lt]
    exact Nat.not_lt.mpr hfirst.1
  rw [hbytes, cons_append] at hhead hdrop ⊢
  rw [parseChar, if_neg hfirst.2.2, if_neg hcontrol, hhead, map_some, hdrop]

section

variable {bytes : List UInt8} {cs : List Char} (h : WritesChars bytes cs)
include h

theorem WritesChars.wellFormed : ∃ ds, bytes = utf8 ds := by
  induction h with
  | nil => exact ⟨[], rfl⟩
  | cons hchar hmore ih =>
    obtain ⟨ds, hds⟩ := hchar.wellFormed
    obtain ⟨es, hes⟩ := ih
    exact ⟨ds ++ es, by rw [utf8_append, hds, hes]⟩

theorem parseChars_of_writes
    (fuel : Nat) (rest : List UInt8) (hfuel : (bytes ++ quote :: rest).length ≤ fuel) :
    parseChars fuel (bytes ++ quote :: rest) = some (cs, rest) := by
  induction h generalizing fuel with
  | nil =>
    cases fuel with
    | zero => cases hfuel
    | succ fuel => rw [nil_append, parseChars, if_pos rfl]
  | @cons bytes more c cs hchar hmore ih =>
    obtain ⟨b, tail, hbytes, hb⟩ := hchar.first
    rw [append_assoc] at hfuel ⊢
    have hread := hchar.reads (more ++ quote :: rest)
    cases fuel with
    | zero =>
      rw [hbytes] at hfuel
      cases hfuel
    | succ fuel =>
      have hless : (more ++ quote :: rest).length ≤ fuel := by
        rw [length_append, hbytes, length_cons] at hfuel
        omega
      rw [hbytes, cons_append] at hread ⊢
      rw [parseChars, if_neg hb, hread, bind_eq_bind, bind_some]
      dsimp only
      rw [ih fuel hless]
      rfl

theorem parseString_of_writes
    (rest : List UInt8) : parseString (quote :: (bytes ++ quote :: rest)) = some (cs, rest) := by
  rw [parseString, if_pos rfl]
  exact parseChars_of_writes h _ rest (Nat.le_refl _)

end

end Strings

section Values

def Blank (bytes : List UInt8) : Prop := ∀ b ∈ bytes, isSpace b = true

/-- Bytes that begin with what a value or a member begins with. -/
def Solid (bytes : List UInt8) : Prop :=
  ∃ b rest, bytes = b :: rest ∧ isSpace b = false ∧ b ≠ closeBracket ∧ b ≠ closeBrace

theorem skipSpace_append (blank bytes : List UInt8) (hb : Blank blank) :
    skipSpace (blank ++ bytes) = skipSpace bytes :=
  dropWhile_append_of_pos hb

theorem skipSpace_cons (b : UInt8) (rest : List UInt8) (hb : isSpace b = false) :
    skipSpace (b :: rest) = b :: rest :=
  dropWhile_cons_of_neg (by simp [hb])

theorem Solid.append {bytes : List UInt8} (h : Solid bytes) (rest : List UInt8) :
    Solid (bytes ++ rest) := by
  obtain ⟨b, tail, rfl, hb⟩ := h
  exact ⟨b, tail ++ rest, rfl, hb⟩

theorem skipSpace_solid {bytes : List UInt8} (h : Solid bytes) : skipSpace bytes = bytes := by
  obtain ⟨b, rest, rfl, hb, -⟩ := h
  exact skipSpace_cons b rest hb

theorem ends_of_blank (blank rest : List UInt8) (hb : Blank blank) (hrest : Ends rest) :
    Ends (blank ++ rest) := by
  cases blank with
  | nil => exact hrest
  | cons b blank =>
    intro c hc
    have hspace := hb b (by simp)
    have hsame : b = c := some.inj hc
    simp only [isSpace, Bool.or_eq_true, beq_iff_eq] at hspace
    rw [← hsame]
    obtain ((h | h) | h) | h := hspace
    all_goals
      rw [h]
      decide

/-- Wherever the bytes are followed by what ends a value, within the limit, they are read as it. -/
def Reads {α : Type} (get : Reader α) (limit : Nat) (bytes : List UInt8) (a : α) : Prop :=
  ∀ rest, Ends rest → (bytes ++ rest).length ≤ limit → get (bytes ++ rest) = some (a, rest)

structure Writes (bytes : List UInt8) (value : Json) : Prop where
  solid : Solid bytes
  reads : ∀ fuel, Reads (parseValue fuel) fuel bytes value

/-- Items as they are written up to what closes them. -/
inductive Series {α : Type} (one : List UInt8 → α → Prop) (close : UInt8) :
    List UInt8 → List α → Prop
  | last {bytes blank : List UInt8} {a : α} :
    one bytes a → Blank blank → Series one close (bytes ++ (blank ++ [close])) [a]
  | cons {bytes blank blank' more : List UInt8} {a : α} {others : List α} :
    one bytes a → Blank blank → Blank blank' → Series one close more others →
      Series one close (bytes ++ (blank ++ comma :: (blank' ++ more))) (a :: others)

section Series

variable {α : Type} {one : List UInt8 → α → Prop} {close : UInt8}

section

variable {bytes : List UInt8} {as : List α} (h : Series one close bytes as)
include h

theorem Series.solid (hone : ∀ bytes a, one bytes a → Solid bytes) : Solid bytes := by
  cases h with
  | last ha hblank => exact (hone _ _ ha).append _
  | cons ha hblank hblank' hmore => exact (hone _ _ ha).append _

theorem parseSeries_of_series {get : Reader α} {limit : Nat} (hclose : close = closeBracket ∨ close = closeBrace)
    (hsolid : ∀ bytes a, one bytes a → Solid bytes)
    (hread : ∀ bytes a, one bytes a → Reads get limit bytes a) (fuel : Nat) (rest : List UInt8)
    (hlimit : (bytes ++ rest).length ≤ limit) (hfuel : (bytes ++ rest).length ≤ fuel) :
    parseSeries get close fuel (bytes ++ rest) = some (as, rest) := by
  have hends : ∀ rest, Ends (close :: rest) := by
    intro rest b hb
    have hsame : close = b := some.inj hb
    rw [← hsame]
    obtain hclose | hclose := hclose
    · rw [hclose]
      decide
    · rw [hclose]
      decide
  have hspace : isSpace close = false ∧ close ≠ comma := by
    obtain hclose | hclose := hclose
    · rw [hclose]
      decide
    · rw [hclose]
      decide
  have hcomma : ∀ rest, Ends (comma :: rest) := by
    intro rest b hb
    have hsame : comma = b := some.inj hb
    rw [← hsame]
    decide
  induction h generalizing fuel with
  | @last bytes blank a ha hblank =>
    cases fuel with
    | zero =>
      obtain ⟨b, tail, rfl, -⟩ := hsolid _ _ ha
      cases hfuel
    | succ fuel =>
      have htext : bytes ++ (blank ++ [close]) ++ rest = bytes ++ (blank ++ close :: rest) := by
        simp
      rw [htext] at hlimit ⊢
      have hget := hread _ _ ha _ (ends_of_blank blank _ hblank (hends rest)) hlimit
      rw [parseSeries, hget, bind_eq_bind, bind_some]
      dsimp only
      rw [skipSpace_append _ _ hblank, skipSpace_cons _ _ hspace.1]
      dsimp only
      rw [if_neg hspace.2, if_pos rfl]
  | @cons bytes blank blank' more a others ha hblank hblank' hmore ih =>
    cases fuel with
    | zero =>
      obtain ⟨b, tail, rfl, -⟩ := hsolid _ _ ha
      cases hfuel
    | succ fuel =>
      have htext : bytes ++ (blank ++ comma :: (blank' ++ more)) ++ rest =
          bytes ++ (blank ++ comma :: (blank' ++ (more ++ rest))) := by
        simp
      rw [htext] at hlimit hfuel ⊢
      have hget := hread _ _ ha _ (ends_of_blank blank _ hblank (hcomma _)) hlimit
      have hless : (more ++ rest).length + 1 ≤
          (bytes ++ (blank ++ comma :: (blank' ++ (more ++ rest)))).length := by
        simp
        omega
      have hrest := ih fuel (by omega) (by omega)
      have hskip : skipSpace (more ++ rest) = more ++ rest :=
        skipSpace_solid ((hmore.solid hsolid).append rest)
      rw [parseSeries, hget, bind_eq_bind, bind_some]
      dsimp only
      rw [skipSpace_append _ _ hblank, skipSpace_cons comma _ (by decide)]
      dsimp only
      rw [if_pos rfl, skipSpace_append _ _ hblank', hskip, hrest]
      rfl

theorem parseBody_of_series {blank : List UInt8} {get : Reader α} {limit : Nat}
    (hclose : close = closeBracket ∨ close = closeBrace) (hblank : Blank blank)
    (hsolid : ∀ bytes a, one bytes a → Solid bytes)
    (hread : ∀ bytes a, one bytes a → Reads get limit bytes a) (rest : List UInt8)
    (hlimit : (blank ++ (bytes ++ rest)).length ≤ limit) :
    parseBody get close (blank ++ (bytes ++ rest)) = some (as, rest) := by
  have hbytes := (h.solid hsolid).append rest
  have hless : (bytes ++ rest).length ≤ (blank ++ (bytes ++ rest)).length := by
    simp only [length_append]
    omega
  have hseries := parseSeries_of_series h hclose hsolid hread
    (blank ++ (bytes ++ rest)).length rest (hless.trans hlimit) hless
  obtain ⟨b, tail, hcons, -, hbracket, hbrace⟩ := hbytes
  have hother : b ≠ close := by
    obtain hclose | hclose := hclose
    · rwa [hclose]
    · rwa [hclose]
  rw [parseBody, skipSpace_append _ _ hblank, skipSpace_solid ((h.solid hsolid).append rest)]
  generalize (blank ++ (bytes ++ rest)).length = fuel at hseries ⊢
  rw [hcons] at hseries ⊢
  dsimp only
  rw [if_neg hother, hseries]

end

end Series

section Rules

theorem Writes.of_plain {bytes : List UInt8} {value : Json} {b : UInt8} {tail : List UInt8}
    (hbytes : bytes = b :: tail) (hspace : isSpace b = false) (hbracket : b ≠ closeBracket)
    (hbrace : b ≠ closeBrace) (hopen : b ≠ quote ∧ b ≠ openBracket ∧ b ≠ openBrace)
    (hplain : ∀ rest, Ends rest → parsePlain (bytes ++ rest) = some (value, rest)) :
    Writes bytes value := by
  refine ⟨⟨b, tail, hbytes, hspace, hbracket, hbrace⟩, ?_⟩
  intro fuel rest hrest hfuel
  have hread := hplain rest hrest
  rw [hbytes, cons_append] at hread hfuel ⊢
  cases fuel with
  | zero => cases hfuel
  | succ fuel => rw [parseValue, if_neg hopen.1, if_neg hopen.2.1, if_neg hopen.2.2, hread]

theorem Writes.null : Writes nullWord .null :=
  Writes.of_plain (b := 0x6E) rfl (by decide) (by decide) (by decide) (by decide) fun rest _ => by
    rw [parsePlain, if_pos (prefix_append _ _), drop_left]

theorem not_prefix_of_ne {b c : UInt8} {word bytes : List UInt8} (h : b ≠ c) :
    ¬ b :: word <+: c :: bytes := fun hprefix => h (cons_prefix_cons.mp hprefix).1

theorem Writes.bool (value : Bool) :
    Writes (if value then trueWord else falseWord) (.bool value) := by
  cases value with
  | true =>
    refine Writes.of_plain (b := 0x74) rfl (by decide) (by decide) (by decide) (by decide) ?_
    intro rest _
    have hother : ¬ nullWord <+: trueWord ++ rest := not_prefix_of_ne (by decide)
    change parsePlain (trueWord ++ rest) = some (.bool true, rest)
    rw [parsePlain, if_neg hother, if_pos (prefix_append _ _), drop_left]
  | false =>
    refine Writes.of_plain (b := 0x66) rfl (by decide) (by decide) (by decide) (by decide) ?_
    intro rest _
    have hnull : ¬ nullWord <+: falseWord ++ rest := not_prefix_of_ne (by decide)
    have htrue : ¬ trueWord <+: falseWord ++ rest := not_prefix_of_ne (by decide)
    change parsePlain (falseWord ++ rest) = some (.bool false, rest)
    rw [parsePlain, if_neg hnull, if_neg htrue, if_pos (prefix_append _ _), drop_left]

theorem Numeral.text_first (n : Numeral) :
    ∃ b tail, n.text = b :: tail ∧ (b = 0x2D ∨ isDigit b = true) := by
  obtain ⟨d, digits, hwhole⟩ := exists_cons_of_ne_nil n.whole_ne
  have hdigit := n.whole_all d (by rw [hwhole]; exact (by simp))
  rw [Numeral.text, Numeral.signText, hwhole]
  cases n.negative with
  | true => exact ⟨0x2D, _, rfl, .inl rfl⟩
  | false => exact ⟨d, _, rfl, .inr hdigit⟩

theorem Writes.num (n : Numeral) : Writes n.text (.num n.value) := by
  obtain ⟨b, tail, htext, hb⟩ := n.text_first
  have hother : ∀ c, c ≠ 0x2D → isDigit c = false → b ≠ c := by
    intro c hminus hdigit hsame
    obtain hb | hb := hb
    · exact hminus (hsame ▸ hb)
    · rw [hsame, hdigit] at hb
      cases hb
  have hspace : isSpace b = false := by
    cases h : isSpace b with
    | false => rfl
    | true =>
      simp only [isSpace, Bool.or_eq_true, beq_iff_eq] at h
      obtain ((h | h) | h) | h := h
      all_goals exact absurd h (hother _ (by decide) (by decide))
  refine Writes.of_plain htext hspace (hother _ (by decide) (by decide))
    (hother _ (by decide) (by decide)) ⟨hother _ (by decide) (by decide),
      hother _ (by decide) (by decide), hother _ (by decide) (by decide)⟩ ?_
  intro rest hrest
  have hword : ∀ c word, c ≠ 0x2D → isDigit c = false → ¬ (c :: word) <+: n.text ++ rest := by
    intro c word hminus hdigit hprefix
    rw [htext] at hprefix
    exact not_prefix_of_ne (hother c hminus hdigit).symm hprefix
  have hnull : ¬ nullWord <+: n.text ++ rest := hword _ _ (by decide) (by decide)
  have htrue : ¬ trueWord <+: n.text ++ rest := hword _ _ (by decide) (by decide)
  have hfalse : ¬ falseWord <+: n.text ++ rest := hword _ _ (by decide) (by decide)
  rw [parsePlain, if_neg hnull, if_neg htrue, if_neg hfalse, parseNumber_text n rest hrest]
  rfl

theorem solid_quote (bytes : List UInt8) : Solid (quote :: bytes) :=
  ⟨quote, bytes, rfl, by decide, by decide, by decide⟩

def quoted (bytes : List UInt8) : List UInt8 := quote :: (bytes ++ [quote])

theorem quoted_append (bytes rest : List UInt8) :
    quoted bytes ++ rest = quote :: (bytes ++ quote :: rest) := by
  simp [quoted]

theorem Writes.of_open {b : UInt8} {tail : List UInt8} {value : Json} (hspace : isSpace b = false)
    (hbracket : b ≠ closeBracket) (hbrace : b ≠ closeBrace)
    (h : ∀ fuel rest, (tail ++ rest).length ≤ fuel →
      parseValue (fuel + 1) (b :: (tail ++ rest)) = some (value, rest)) :
    Writes (b :: tail) value := by
  refine ⟨⟨b, tail, rfl, hspace, hbracket, hbrace⟩, ?_⟩
  intro fuel rest _ hfuel
  cases fuel with
  | zero => cases hfuel
  | succ fuel => exact h fuel rest (Nat.le_of_succ_le_succ hfuel)

theorem Writes.str {bytes : List UInt8} {text : List Char} (h : WritesChars bytes text) :
    Writes (quoted bytes) (.str text) := by
  refine Writes.of_open (by decide) (by decide) (by decide) ?_
  intro fuel rest _
  rw [append_assoc, singleton_append, parseValue, if_pos rfl, parseString_of_writes h rest]
  rfl

theorem Writes.arr {bytes blank : List UInt8} {items : List Json} (hblank : Blank blank)
    (h : Series Writes closeBracket bytes items) :
    Writes (openBracket :: (blank ++ bytes)) (.arr items) := by
  refine Writes.of_open (by decide) (by decide) (by decide) ?_
  intro fuel rest hfuel
  rw [append_assoc] at hfuel ⊢
  have hbody := parseBody_of_series h (.inl rfl) hblank (fun _ _ hone => hone.solid)
    (fun _ _ hone => hone.reads fuel) rest hfuel
  rw [parseValue, if_neg (by decide), if_pos rfl, hbody]
  rfl

inductive WritesMember : List UInt8 → List Char × Json → Prop
  | intro {name bytes blank blank' : List UInt8} {text : List Char} {value : Json} :
    WritesChars name text → Blank blank → Blank blank' → Writes bytes value →
      WritesMember (quoted name ++ (blank ++ colon :: (blank' ++ bytes))) (text, value)

section

variable {bytes : List UInt8} {member : List Char × Json} (h : WritesMember bytes member)
include h

theorem WritesMember.solid : Solid bytes := by
  cases h with
  | intro hname hblank hblank' hvalue => exact (solid_quote _).append _

theorem WritesMember.reads (fuel : Nat) :
    Reads (parseMember (parseValue fuel)) fuel bytes member := by
  cases h with
  | @intro name bytes blank blank' text value hname hblank hblank' hvalue =>
    intro rest hrest hfuel
    have htext : quoted name ++ (blank ++ colon :: (blank' ++ bytes)) ++ rest =
        quoted name ++ (blank ++ colon :: (blank' ++ (bytes ++ rest))) := by
      simp
    rw [htext] at hfuel ⊢
    have hless : (bytes ++ rest).length ≤ fuel := by
      simp at hfuel ⊢
      omega
    have hstring := parseString_of_writes hname (blank ++ colon :: (blank' ++ (bytes ++ rest)))
    rw [quoted_append, parseMember, hstring, bind_eq_bind, bind_some]
    dsimp only
    rw [skipSpace_append _ _ hblank, skipSpace_cons colon _ (by decide)]
    dsimp only
    rw [if_pos rfl, skipSpace_append _ _ hblank', skipSpace_solid (hvalue.solid.append rest),
      hvalue.reads fuel rest hrest hless]
    rfl

end

theorem Writes.obj {bytes blank : List UInt8} {members : List (List Char × Json)}
    (hblank : Blank blank) (h : Series WritesMember closeBrace bytes members) :
    Writes (openBrace :: (blank ++ bytes)) (.obj members) := by
  refine Writes.of_open (by decide) (by decide) (by decide) ?_
  intro fuel rest hfuel
  rw [append_assoc] at hfuel ⊢
  have hbody := parseBody_of_series h (.inr rfl) hblank (fun _ _ hone => hone.solid)
    (fun _ _ hone => hone.reads fuel) rest hfuel
  rw [parseValue, if_neg (by decide), if_neg (by decide), if_pos rfl, hbody]
  rfl

theorem parse_of_writes {bytes blank : List UInt8} {value : Json} (h : Writes bytes value)
    (hblank : Blank blank) : parse (bytes ++ blank) = some value := by
  have hends : Ends blank := by
    have hnil : Ends [] := nofun
    have hblanks := ends_of_blank blank [] hblank hnil
    rwa [append_nil] at hblanks
  have hskip : skipSpace blank = [] := dropWhile_eq_nil_iff.mpr hblank
  rw [parse, skipSpace_solid (h.solid.append blank), h.reads _ blank hends (Nat.le_refl _),
    bind_eq_bind, bind_some]
  dsimp only
  rw [if_pos hskip]

end Rules

end Values

end LoadForge.Framework.Json
