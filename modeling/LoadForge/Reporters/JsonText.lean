import LoadForge.Framework.Bytes
import LoadForge.Results.Document

namespace LoadForge.Reporters

open Framework Results

def kIndent : List UInt8 := bytesOf "  "
def kHexDigits : List UInt8 := bytesOf "0123456789abcdef"
def kReplacement : List UInt8 := bytesOf "\\ufffd"
def kUnavailable : List UInt8 := bytesOf "_unavailable"

def continuation (text : List UInt8) (index : Nat) (low high : UInt8) : Bool :=
  text[index]?.any fun byte => low ≤ byte && byte ≤ high

/-- The lead bytes of a form, its length, and the range of the byte after the lead. -/
structure Form where
  first : UInt8
  last : UInt8
  length : Nat
  secondLow : UInt8
  secondHigh : UInt8
  deriving DecidableEq

def Form.covers (form : Form) (lead : UInt8) : Bool := form.first ≤ lead && lead ≤ form.last

/-- The greatest byte after the lead. After 0xF4 the code points end at U+10FFFF. -/
def Form.secondHighFor (form : Form) (lead : UInt8) : UInt8 :=
  if lead = 0xF4 then 0x8F else form.secondHigh

def kForms : List Form :=
  [⟨0xC2, 0xDF, 2, 0x80, 0xBF⟩, ⟨0xE0, 0xE0, 3, 0xA0, 0xBF⟩, ⟨0xE1, 0xEC, 3, 0x80, 0xBF⟩,
   ⟨0xED, 0xED, 3, 0x80, 0x9F⟩, ⟨0xEE, 0xEF, 3, 0x80, 0xBF⟩, ⟨0xF0, 0xF0, 4, 0x90, 0xBF⟩,
   ⟨0xF1, 0xF4, 4, 0x80, 0xBF⟩]

/-- The length of the sequence a text begins with in this form, or 0. -/
def formLength (text : List UInt8) (lead : UInt8) (form : Form) : Nat :=
  if text.length < form.length ∨ ¬ continuation text 1 form.secondLow (form.secondHighFor lead) then
    0
  else if (List.range' 2 (form.length - 2)).all fun index => continuation text index 0x80 0xBF then
    form.length
  else 0

/-- The length of the UTF-8 sequence a text begins with, or 0. -/
def utf8SequenceLength : List UInt8 → Nat
  | [] => 0
  | lead :: rest =>
    if lead < 0x80 then 1
    else
      match kForms.find? (Form.covers · lead) with
      | some form => formLength (lead :: rest) lead form
      | none => 0

def escapeOf (byte : UInt8) : Option (List UInt8) :=
  if byte = 0x22 then some (bytesOf "\\\"")
  else if byte = 0x5C then some (bytesOf "\\\\")
  else if byte = 0x0A then some (bytesOf "\\n")
  else if byte = 0x0D then some (bytesOf "\\r")
  else if byte = 0x09 then some (bytesOf "\\t")
  else if byte < 0x20 ∨ byte = 0x7F then
    some (bytesOf "\\u00" ++
      [kHexDigits.getD (byte >>> 4).toNat 0, kHexDigits.getD (byte &&& 0xF).toNat 0])
  else none

def jsonChars (text : List UInt8) : List UInt8 :=
  match text with
  | [] => []
  | byte :: rest =>
    match escapeOf byte with
    | some escaped => escaped ++ jsonChars rest
    | none =>
      if utf8SequenceLength (byte :: rest) = 0 then kReplacement ++ jsonChars rest
      else (byte :: rest).take (utf8SequenceLength (byte :: rest)) ++
        jsonChars ((byte :: rest).drop (utf8SequenceLength (byte :: rest)))
termination_by text.length
decreasing_by
  · simp
  · simp
  · rw [List.length_drop, List.length_cons]
    omega

def jsonString (text : List UInt8) : List UInt8 := bytesOf "\"" ++ jsonChars text ++ bytesOf "\""

def indent (depth : Nat) : List UInt8 := (List.replicate depth kIndent).flatten

def decimal (value : Int) : List UInt8 := bytesOf (toString value)

def absenceLine (depth : Nat) (name : String) (text : List UInt8) (ending : String) : List UInt8 :=
  indent (depth + 1) ++ bytesOf ("\"" ++ name ++ "\": ") ++ jsonString text ++ bytesOf ending

def writeAbsence (absence : Absence (List UInt8)) (depth : Nat) : List UInt8 :=
  bytesOf "\x7b\n" ++ absenceLine depth "kind" absence.kind ",\n" ++
    absenceLine depth "words" absence.words ",\n" ++ absenceLine depth "path" absence.path ",\n" ++
    absenceLine depth "detail" absence.detail ",\n" ++
    absenceLine depth "remediation" absence.remediation "\n" ++ indent depth ++ bytesOf "\x7d"

def ending (last : Bool) : List UInt8 := if last then bytesOf "\n" else bytesOf ",\n"

section Writers

variable {R : Type} (formatReal : R → List UInt8)

def writeNumber : Number R → List UInt8
  | .integer value => decimal value.toInt
  | .unsigned value => decimal value.toNat
  | .real value => formatReal value

mutual

def writeNode (depth : Nat) : Document R → List UInt8
  | .null => bytesOf "null"
  | .boolean value => if value then bytesOf "true" else bytesOf "false"
  | .number value => writeNumber formatReal value
  | .text value => jsonString value
  | .array items =>
    if items.isEmpty then bytesOf "[]"
    else bytesOf "[\n" ++ writeItems depth items ++ indent depth ++ bytesOf "]"
  | .object members =>
    if members.isEmpty then bytesOf "\x7b\x7d"
    else bytesOf "\x7b\n" ++ writeMembers depth members ++ indent depth ++ bytesOf "\x7d"
  | .absence value => writeAbsence value depth

def writeItems (depth : Nat) : List (Document R) → List UInt8
  | [] => []
  | item :: items =>
    indent (depth + 1) ++ writeNode (depth + 1) item ++ ending items.isEmpty ++
      writeItems depth items

def writeMembers (depth : Nat) : List (List UInt8 × Document R) → List UInt8
  | [] => []
  | (key, value) :: members =>
    indent (depth + 1) ++ jsonString key ++ bytesOf ": " ++
      (match value.asAbsence with
        | some absence =>
          bytesOf "null,\n" ++ indent (depth + 1) ++ jsonString (key ++ kUnavailable) ++
            bytesOf ": " ++ writeAbsence absence (depth + 1)
        | none => writeNode (depth + 1) value) ++
      ending members.isEmpty ++ writeMembers depth members

end

end Writers

end LoadForge.Reporters
