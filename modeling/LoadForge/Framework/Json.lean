import Mathlib.Data.List.TakeWhile
import Mathlib.Data.Nat.Digits.Lemmas
import LoadForge.Framework.Utf8

namespace LoadForge.Framework

/-- A JSON value (RFC 8259), with the members of an object in their order. -/
inductive Json
  | null
  | bool (value : Bool)
  | num (value : ℚ)
  | str (text : List Char)
  | arr (items : List Json)
  | obj (members : List (List Char × Json))

/-- A reader takes what it reads from the front and leaves the rest. -/
abbrev Reader (α : Type) : Type := List UInt8 → Option (α × List UInt8)

namespace Json

def quote : UInt8 := 0x22
def comma : UInt8 := 0x2C
def colon : UInt8 := 0x3A
def backslash : UInt8 := 0x5C
def openBracket : UInt8 := 0x5B
def closeBracket : UInt8 := 0x5D
def openBrace : UInt8 := 0x7B
def closeBrace : UInt8 := 0x7D

def isSpace (b : UInt8) : Bool := b == 0x20 || b == 0x09 || b == 0x0A || b == 0x0D

variable (bytes : List UInt8)

def skipSpace : List UInt8 := bytes.dropWhile isSpace

section Strings

def hexOf (b : UInt8) : Option Nat :=
  if 0x30 ≤ b ∧ b ≤ 0x39 then some (b.toNat - 0x30)
  else if 0x41 ≤ b ∧ b ≤ 0x46 then some (b.toNat - 0x41 + 10)
  else if 0x61 ≤ b ∧ b ≤ 0x66 then some (b.toNat - 0x61 + 10)
  else none

def parseUnit : Reader Nat
  | a :: b :: c :: d :: rest => do
    let a ← hexOf a
    let b ← hexOf b
    let c ← hexOf c
    let d ← hexOf d
    some (a * 4096 + b * 256 + c * 16 + d, rest)
  | _ => none

def parseLow (high : Nat) : Reader Char
  | b :: u :: rest =>
    if b = backslash ∧ u = 0x75 then do
      let (low, rest) ← parseUnit rest
      if 0xDC00 ≤ low ∧ low < 0xE000 then
        some (Char.ofNat (0x10000 + (high - 0xD800) * 0x400 + (low - 0xDC00)), rest)
      else none
    else none
  | _ => none

def parseUnicode : Option (Char × List UInt8) := do
  let (unit, rest) ← parseUnit bytes
  if 0xD800 ≤ unit ∧ unit < 0xDC00 then parseLow unit rest
  else if 0xDC00 ≤ unit ∧ unit < 0xE000 then none
  else some (Char.ofNat unit, rest)

/-- The characters with a short escape, by the byte that names them. -/
def escapes : List (UInt8 × Char) :=
  [(0x22, '"'), (0x5C, '\\'), (0x2F, '/'), (0x62, '\x08'), (0x66, '\x0C'), (0x6E, '\n'),
   (0x72, '\r'), (0x74, '\t')]

def parseEscape : Reader Char
  | [] => none
  | b :: rest =>
    if b = 0x75 then parseUnicode rest else (escapes.lookup b).map fun c => (c, rest)

def parseChar : Reader Char
  | [] => none
  | b :: rest =>
    if b = backslash then parseEscape rest
    else if b < 0x20 then none
    else (headChar (b :: rest)).map fun c => (c, (b :: rest).drop c.utf8Size)

/-- The characters of a string up to the quote that closes it. -/
def parseChars : Nat → Reader (List Char)
  | 0, _ => none
  | _ + 1, [] => none
  | fuel + 1, b :: rest =>
    if b = quote then some ([], rest)
    else do
      let (c, rest) ← parseChar (b :: rest)
      let (cs, rest) ← parseChars fuel rest
      some (c :: cs, rest)

def parseString : Reader (List Char)
  | [] => none
  | b :: rest => if b = quote then parseChars rest.length rest else none

end Strings

section Numbers

def isDigit (b : UInt8) : Bool := 0x30 ≤ b && b ≤ 0x39

def digitsValue (digits : List UInt8) : Nat :=
  digits.foldl (fun value b => 10 * value + (b.toNat - 48)) 0

def decimalValue (negative : Bool) (whole fraction : List UInt8) (exponent : Int) : ℚ :=
  (if negative then -1 else 1) * digitsValue (whole ++ fraction) *
    10 ^ (exponent - fraction.length)

def parseSign (sign : UInt8) : List UInt8 → Bool × List UInt8
  | [] => (false, [])
  | b :: rest => if b = sign then (true, rest) else (false, b :: rest)

def parseDigits : Option (List UInt8 × List UInt8) :=
  if bytes.takeWhile isDigit = [] then none
  else some (bytes.takeWhile isDigit, bytes.dropWhile isDigit)

def parseFraction : Reader (List UInt8)
  | [] => some ([], [])
  | b :: rest => if b = 0x2E then parseDigits rest else some ([], b :: rest)

def parsePower : Option (Int × List UInt8) :=
  if (parseSign 0x2D bytes).1 then
    (parseDigits (parseSign 0x2D bytes).2).map fun (digits, rest) =>
      (-(digitsValue digits : Int), rest)
  else (parseDigits (parseSign 0x2B bytes).2).map fun (digits, rest) => (digitsValue digits, rest)

def parseExponent : Reader Int
  | [] => some (0, [])
  | b :: rest => if b = 0x65 ∨ b = 0x45 then parsePower rest else some (0, b :: rest)

def parseNumber : Option (ℚ × List UInt8) := do
  let (whole, rest) ← parseDigits (parseSign 0x2D bytes).2
  if 1 < whole.length ∧ whole.head? = some 0x30 then none
  else do
    let (fraction, rest) ← parseFraction rest
    let (exponent, rest) ← parseExponent rest
    some (decimalValue (parseSign 0x2D bytes).1 whole fraction exponent, rest)

end Numbers

section Values

def nullWord : List UInt8 := [0x6E, 0x75, 0x6C, 0x6C]
def trueWord : List UInt8 := [0x74, 0x72, 0x75, 0x65]
def falseWord : List UInt8 := [0x66, 0x61, 0x6C, 0x73, 0x65]

/-- A value that holds no others and is not a string. -/
def parsePlain : Option (Json × List UInt8) :=
  if nullWord <+: bytes then some (.null, bytes.drop nullWord.length)
  else if trueWord <+: bytes then some (.bool true, bytes.drop trueWord.length)
  else if falseWord <+: bytes then some (.bool false, bytes.drop falseWord.length)
  else (parseNumber bytes).map fun (value, rest) => (.num value, rest)

/-- Items with commas between them, up to what closes them. -/
def parseSeries {α : Type} (item : Reader α) (close : UInt8) : Nat → Reader (List α)
  | 0, _ => none
  | fuel + 1, bytes => do
    let (a, rest) ← item bytes
    match skipSpace rest with
    | [] => none
    | b :: rest =>
      if b = comma then do
        let (others, rest) ← parseSeries item close fuel (skipSpace rest)
        some (a :: others, rest)
      else if b = close then some ([a], rest)
      else none

def parseBody {α : Type} (item : Reader α) (close : UInt8) (bytes : List UInt8) :
    Option (List α × List UInt8) :=
  match skipSpace bytes with
  | [] => none
  | b :: rest =>
    if b = close then some ([], rest) else parseSeries item close bytes.length (b :: rest)

def parseMember (value : Reader Json) (bytes : List UInt8) :
    Option ((List Char × Json) × List UInt8) := do
  let (name, rest) ← parseString bytes
  match skipSpace rest with
  | [] => none
  | b :: rest =>
    if b = colon then do
      let (v, rest) ← value (skipSpace rest)
      some ((name, v), rest)
    else none

/-- A value. The fuel bounds how deep values are inside of each other. -/
def parseValue : Nat → Reader Json
  | 0, _ => none
  | _ + 1, [] => none
  | fuel + 1, b :: rest =>
    if b = quote then (parseString (b :: rest)).map fun (text, rest) => (.str text, rest)
    else if b = openBracket then
      (parseBody (parseValue fuel) closeBracket rest).map fun (items, rest) => (.arr items, rest)
    else if b = openBrace then
      (parseBody (parseMember (parseValue fuel)) closeBrace rest).map fun (members, rest) =>
        (.obj members, rest)
    else parsePlain (b :: rest)

/-- A JSON text: one value, with nothing but blanks around it. -/
def parse : Option Json := do
  let (value, rest) ← parseValue bytes.length (skipSpace bytes)
  if skipSpace rest = [] then some value else none

end Values

end Json

end LoadForge.Framework
