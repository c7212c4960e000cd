import LoadForge.Framework.Framing
import LoadForge.Framework.Parsing

namespace LoadForge.Framework.Csv

open List Option

def quote : UInt8 := 0x22
def comma : UInt8 := 0x2C
def recordEnd : List UInt8 := [0x0D, 0x0A]

section Parser

/-- A byte that can stand in a field without quotes. -/
def isText (b : UInt8) : Bool := b != comma && b != quote && b != 0x0D && b != 0x0A

/-- A field after the quote that opens it. Two quotes stand for one. -/
def parseQuoted : List UInt8 → Option (List UInt8 × List UInt8)
  | [] => none
  | [b] => if b = quote then some ([], []) else none
  | b :: c :: rest =>
    if b = quote then
      if c = quote then (parseQuoted rest).map fun (field, rest) => (quote :: field, rest)
      else some ([], c :: rest)
    else (parseQuoted (c :: rest)).map fun (field, rest) => (b :: field, rest)

def parseField (bytes : List UInt8) : Option (List UInt8 × List UInt8) :=
  if bytes.head? = some quote then parseQuoted bytes.tail
  else some (bytes.takeWhile isText, bytes.dropWhile isText)

def parseRecord : Nat → List UInt8 → Option (List (List UInt8) × List UInt8)
  | 0, _ => none
  | fuel + 1, bytes => do
    let (field, rest) ← parseField bytes
    if rest.head? = some comma then do
      let (fields, rest) ← parseRecord fuel rest.tail
      some (field :: fields, rest)
    else some ([field], rest)

/-- Records with line ends between them, and perhaps one after the last. -/
def parseRecords : Nat → List UInt8 → Option (List (List (List UInt8)))
  | 0, _ => none
  | fuel + 1, bytes => do
    let (record, rest) ← parseRecord (bytes.length + 1) bytes
    if rest = [] ∨ rest = recordEnd then some [record]
    else if recordEnd <+: rest then do
      let records ← parseRecords fuel (rest.drop recordEnd.length)
      some (record :: records)
    else none

/-- The records of a file of comma-separated values (RFC 4180). -/
def parse (bytes : List UInt8) : Option (List (List (List UInt8))) :=
  parseRecords (bytes.length + 1) bytes

end Parser

section Writing

def Ends (rest : List UInt8) : Prop := ∀ b, rest.head? = some b → b = comma ∨ b = 0x0D

/-- The text is read as the field, wherever a field can end. -/
def WritesField (text field : List UInt8) : Prop :=
  ∀ rest, Ends rest → parseField (text ++ rest) = some (field, rest)

/-- The text is one of the fields with commas between them. -/
inductive WritesRecord : List UInt8 → List (List UInt8) → Prop
  | last {text field : List UInt8} : WritesField text field → WritesRecord text [field]
  | more {text field others : List UInt8} {fields : List (List UInt8)} :
    WritesField text field → WritesRecord others fields →
    WritesRecord (text ++ comma :: others) (field :: fields)

def double (b : UInt8) : List UInt8 := if b = quote then [quote, b] else [b]

theorem ends_recordEnd (rest : List UInt8) : Ends (recordEnd ++ rest) := by
  intro b hb
  exact Or.inr (some.inj hb).symm

theorem ends_comma (rest : List UInt8) : Ends (comma :: rest) := by
  intro b hb
  exact Or.inl (some.inj hb).symm

theorem Ends.quote_ne {rest : List UInt8} (h : Ends rest) : rest.head? ≠ some quote := by
  intro hquote
  obtain hb | hb := h quote hquote
  · exact absurd hb (by decide)
  · exact absurd hb (by decide)

theorem Ends.isText_eq {rest : List UInt8} (h : Ends rest) (b : UInt8)
    (hb : rest.head? = some b) : isText b = false := by
  obtain rfl | rfl := h b hb
  · rfl
  · rfl

theorem WritesField.plain {text : List UInt8} (h : ∀ b ∈ text, isText b = true) :
    WritesField text text := by
  intro rest hrest
  obtain ⟨htake, hdrop⟩ := span_append h hrest.isText_eq
  have hhead : (text ++ rest).head? ≠ some quote := by
    cases text with
    | nil => exact hrest.quote_ne
    | cons b text =>
      intro hb
      have hquote : b = quote := some.inj hb
      have htext := h b mem_cons_self
      rw [hquote] at htext
      exact absurd htext (by decide)
  rw [parseField, if_neg hhead, htake, hdrop]

theorem parseQuoted_close {rest : List UInt8} (h : Ends rest) :
    parseQuoted (quote :: rest) = some ([], rest) := by
  cases rest with
  | nil => rfl
  | cons c rest =>
    have hc : c ≠ quote := by
      intro hquote
      exact h.quote_ne (congrArg some hquote)
    rw [parseQuoted, if_pos rfl, if_neg hc]

theorem parseQuoted_double (b : UInt8) {rest : List UInt8} (hrest : rest ≠ []) :
    parseQuoted (double b ++ rest) =
      (parseQuoted rest).map fun (field, rest) => (b :: field, rest) := by
  by_cases hb : b = quote
  · rw [double, if_pos hb, hb]
    rfl
  · rw [double, if_neg hb]
    cases rest with
    | nil => exact absurd rfl hrest
    | cons c rest =>
      rw [singleton_append, parseQuoted, if_neg hb]

theorem WritesField.quoted (text : List UInt8) :
    WritesField (quote :: (text.flatMap double ++ [quote])) text := by
  intro rest hrest
  rw [cons_append, parseField, head?_cons, if_pos rfl, tail_cons, append_assoc, singleton_append]
  induction text with
  | nil => exact parseQuoted_close hrest
  | cons b text ih =>
    have hne : text.flatMap double ++ quote :: rest ≠ [] := by simp
    simp [parseQuoted_double b hne, ih]

theorem parseRecord_of_writes {text : List UInt8} {fields : List (List UInt8)}
    (h : WritesRecord text fields) (rest : List UInt8) {fuel : Nat} (hfuel : text.length < fuel) :
    parseRecord fuel (text ++ (recordEnd ++ rest)) = some (fields, recordEnd ++ rest) := by
  induction h generalizing fuel with
  | @last text field hfield =>
    obtain ⟨fuel, rfl⟩ := Nat.exists_eq_succ_of_ne_zero (Nat.ne_of_gt (Nat.zero_lt_of_lt hfuel))
    rw [parseRecord, hfield _ (ends_recordEnd rest), bind_eq_bind, bind_some]
    rfl
  | @more text field others fields hfield hothers ih =>
    obtain ⟨fuel, rfl⟩ := Nat.exists_eq_succ_of_ne_zero (Nat.ne_of_gt (Nat.zero_lt_of_lt hfuel))
    have hlength : others.length < fuel := by
      rw [length_append, length_cons] at hfuel
      omega
    rw [append_assoc, cons_append, parseRecord, hfield _ (ends_comma _), bind_eq_bind, bind_some]
    dsimp only
    rw [head?_cons, if_pos rfl, tail_cons, ih hlength, bind_eq_bind, bind_some]

theorem length_le_texts (texts : List (List UInt8)) :
    texts.length ≤ (texts.flatMap (· ++ recordEnd)).length :=
  length_le_flatMap (fun text => by simp [recordEnd]) texts

section

variable {texts : List (List UInt8)} {records : List (List (List UInt8))}
  (h : List.Forall₂ WritesRecord texts records) (hne : texts ≠ [])
include h hne

theorem parseRecords_of_writes {fuel : Nat}
    (hfuel : texts.length < fuel) :
    parseRecords fuel (texts.flatMap (· ++ recordEnd)) = some records := by
  induction h generalizing fuel with
  | nil => exact absurd rfl hne
  | @cons text record texts records hrecord hrecords ih =>
    obtain ⟨fuel, rfl⟩ := Nat.exists_eq_succ_of_ne_zero (Nat.ne_of_gt (Nat.zero_lt_of_lt hfuel))
    have hlength (rest : List UInt8) : text.length < (text ++ rest).length + 1 := by
      rw [length_append]
      omega
    rw [flatMap_cons, append_assoc, parseRecords,
      parseRecord_of_writes hrecord _ (hlength _), bind_eq_bind, bind_some]
    dsimp only
    by_cases hlast : texts = []
    · subst hlast
      cases hrecords
      rfl
    · have hrest : texts.flatMap (· ++ recordEnd) ≠ [] := by
        intro hnil
        have hle := length_le_texts texts
        rw [hnil] at hle
        exact hlast (eq_nil_of_length_eq_zero (Nat.le_zero.mp hle))
      have hmore : ¬ (recordEnd ++ texts.flatMap (· ++ recordEnd) = [] ∨
          recordEnd ++ texts.flatMap (· ++ recordEnd) = recordEnd) := by
        intro hend
        obtain hend | hend := hend
        · exact absurd (append_eq_nil_iff.mp hend).2 hrest
        · exact hrest (append_right_eq_self.mp hend)
      rw [if_neg hmore, if_pos (prefix_append _ _), drop_left,
        ih hlast (Nat.lt_of_succ_lt_succ hfuel), bind_eq_bind, bind_some]

theorem parse_of_writes : parse (texts.flatMap (· ++ recordEnd)) = some records :=
  parseRecords_of_writes h hne (Nat.lt_succ_of_le (length_le_texts texts))

end

end Writing

end LoadForge.Framework.Csv
