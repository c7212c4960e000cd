import LoadForge.Core.ParseNumber
import LoadForge.Workloads.Workload

namespace LoadForge.Verification.Golden

open LoadForge.Core Primitives Workloads List

structure GoldenKey where
  workload : String
  version : UInt32
  isa : IsaPath
  seed : UInt64
  footprintBytes : UInt64
  decomposition : UInt32
  resolvedDecomposition : UInt32
  units : UInt64
  deriving DecidableEq

structure UnitDigest where
  input : UInt64
  output : UInt64
  deriving DecidableEq

structure GoldenVector where
  key : GoldenKey
  units : List UnitDigest
  digest : UInt64
  deriving DecidableEq

/-- Why a vector could not be read, and the line where reading stopped. -/
structure GoldenError where
  line : Option Nat
  detail : String
  deriving DecidableEq

def kMagic : String := "loadforge-golden 1"
def kHexDigits : Nat := 16
def kDigits : String := "0123456789abcdef"

def hexDigit (n : Nat) : Char := kDigits.toList.getD n '0'

/-- The sixteen hexadecimal digits of a number, the highest first. -/
def hex16 (value : UInt64) : String :=
  "0x" ++ String.ofList ((List.range kHexDigits).reverse.map fun digit =>
    hexDigit ((value >>> (4 * UInt64.ofNat digit)) &&& 0x0F).toNat)

def takeLine (text : List Char) : List Char × List Char :=
  (text.takeWhile (· != '\n'), (text.dropWhile (· != '\n')).drop 1)

theorem takeLine_length (text : List Char) (h : text ≠ []) :
    (takeLine text).2.length < text.length := by
  have hsplit := congrArg length (takeWhile_append_dropWhile (p := (· != '\n')) (l := text))
  have hpos := length_pos_iff.mpr h
  rw [length_append] at hsplit
  rw [takeLine, length_drop]
  cases hdrop : text.dropWhile (· != '\n') with
  | nil => simpa using hpos
  | cons c rest =>
    rw [hdrop, length_cons] at hsplit
    rw [length_cons]
    omega

def isContent (line : List Char) : Bool := line.head?.any (· != '#')

structure ParserState where
  rest : List Char
  number : Nat

abbrev Parser : Type → Type := StateT ParserState (Except GoldenError)

/-- The next line that is not empty and not a comment. -/
def nextLine (rest : List Char) (number : Nat) : Option String × ParserState :=
  if h : rest = [] then (none, ⟨rest, number⟩)
  else
    let line := (takeLine rest).1
    if isContent line then (some (String.ofList line), ⟨(takeLine rest).2, number + 1⟩)
    else nextLine (takeLine rest).2 (number + 1)
termination_by rest.length
decreasing_by exact takeLine_length rest h

def next : Parser (Option String) := fun s => .ok (nextLine s.rest s.number)

def fail {α : Type} (detail : String) : Parser α := fun s => .error ⟨some s.number, detail⟩

def failAtEnd {α : Type} (wanted : String) : Parser α :=
  fail ("the file ends where " ++ wanted ++ " was expected")

def orFail {α : Type} (found : Option α) (detail : String) : Parser α :=
  match found with
  | some value => pure value
  | none => fail detail

/-- What follows the key and a blank on the next line. -/
def keyed (key : String) : Parser String := do
  match ← next with
  | none => failAtEnd ("'" ++ key ++ "'")
  | some line =>
    if key.toList <+: line.toList ∧ line.toList[key.toList.length]? = some ' ' then
      pure (String.ofList (line.toList.drop (key.toList.length + 1)))
    else fail ("expected '" ++ key ++ " ...', found '" ++ line ++ "'")

def exactly (expected : String) : Parser Unit := do
  match ← next with
  | none => failAtEnd ("'" ++ expected ++ "'")
  | some line =>
    if line = expected then pure ()
    else fail ("expected '" ++ expected ++ "', found '" ++ line ++ "'")

def decimalOf (token : String) (limit : UInt64) : Option UInt64 :=
  match fromChars token.toList with
  | .ok ⟨value, []⟩ =>
    if (token.toList.length = 1 ∨ token.toList.head? ≠ some '0') ∧ value ≤ limit then some value
    else none
  | _ => none

def decimal (what token : String) (limit : UInt64) : Parser UInt64 :=
  orFail (decimalOf token limit)
    (what ++ " '" ++ token ++ "' is not a decimal from 0 to " ++ toString limit ++
      " without sign or leading zeros")

def isLowerHex (c : Char) : Bool := ('0' ≤ c && c ≤ '9') || ('a' ≤ c && c ≤ 'f')

def hexValue (c : Char) : Nat := if c ≤ '9' then c.toNat - 48 else c.toNat - 87

def hexOf (token : String) : Option UInt64 :=
  if token.toList.length = 2 + kHexDigits ∧ "0x".toList <+: token.toList ∧
      (token.toList.drop 2).all isLowerHex then
    some (UInt64.ofNat ((token.toList.drop 2).foldl (fun value c => 16 * value + hexValue c) 0))
  else none

def hexadecimal (what token : String) : Parser UInt64 :=
  orFail (hexOf token)
    (what ++ " '" ++ token ++ "' is not 0x and sixteen lower-case hexadecimal digits")

def kU32 : UInt64 := 4294967295
def kU64 : UInt64 := 18446744073709551615

def parseHexadecimal (key : String) : Parser UInt64 := do
  let value ← keyed key
  hexadecimal key value

def parseDecimal (key : String) (limit : UInt64) : Parser UInt64 := do
  let value ← keyed key
  decimal key value limit

def parsePositive (key : String) (limit : UInt64) (detail : String) : Parser UInt64 := do
  let number ← parseDecimal key limit
  if number = 0 then fail detail else pure number

def parseWorkload : Parser String := do
  let value ← keyed "workload"
  if ¬ isValidName value then fail ("workload '" ++ value ++ "' is not a valid workload name")
  else pure value

def parseIsa : Parser IsaPath := do
  let value ← keyed "isa"
  orFail (parseIsaPath value) ("isa '" ++ value ++ "' is not an ISA path")

def parseKey : Parser GoldenKey := do
  exactly kMagic
  let workload ← parseWorkload
  let version ← parsePositive "version" kU32 "version 0: a workload's version is at least 1"
  let isa ← parseIsa
  let seed ← parseHexadecimal "seed"
  let footprintBytes ← parseDecimal "footprint_bytes" kU64
  let decomposition ← parseDecimal "decomposition" kU32
  let resolvedDecomposition ← parsePositive "resolved_decomposition" kU32
    "resolved_decomposition 0: a plan's decomposition is never 0"
  let units ← parsePositive "units" kU64 "units 0: a vector of no unit would compare nothing"
  pure { workload, version := version.toUInt32, isa, seed, footprintBytes
         decomposition := decomposition.toUInt32
         resolvedDecomposition := resolvedDecomposition.toUInt32, units }

def kOutput : String := " output "

def parseDigests (index : Nat) (value : List Char) : Parser UnitDigest := do
  let input := value.take (2 + kHexDigits)
  let inputDigest ← hexadecimal "unit input digest" (String.ofList input)
  let rest := value.drop input.length
  if ¬ kOutput.toList <+: rest then
    fail ("expected ' output ' after unit " ++ toString index ++ "'s input digest")
  else do
    let outputDigest ←
      hexadecimal "unit output digest" (String.ofList (rest.drop kOutput.toList.length))
    pure ⟨inputDigest, outputDigest⟩

def unitMark (index : Nat) : String := toString index ++ " input "

def parseUnit (index : Nat) : Parser UnitDigest := do
  let value ← keyed "unit"
  if ¬ (unitMark index).toList <+: value.toList then
    fail ("expected 'unit " ++ unitMark index ++ "...', found 'unit " ++ value ++ "'")
  else parseDigests index (value.toList.drop (unitMark index).toList.length)

def parseUnits (index : Nat) : Nat → Parser (List UnitDigest)
  | 0 => pure []
  | count + 1 => do
    let unit ← parseUnit index
    let rest ← parseUnits (index + 1) count
    pure (unit :: rest)

def parseVector : Parser GoldenVector := do
  let key ← parseKey
  let units ← parseUnits 0 key.units.toNat
  let digest ← parseHexadecimal "digest"
  pure { key, units, digest }

def refuseExtra : Option String → Parser Unit
  | none => pure ()
  | some extra => fail ("'" ++ extra ++ "' after the digest, which ends the vector")

def parseEnd : Parser Unit := next >>= refuseExtra

def parseFile : Parser GoldenVector := do
  let vector ← parseVector
  parseEnd
  pure vector

def parseGolden (text : String) : Except GoldenError GoldenVector :=
  (parseFile.run ⟨text.toList, 0⟩).map Prod.fst

def kHeader : List String :=
  ["# LoadForge golden vector: a regression tripwire, not an oracle (docs/verification.md §4).",
   "# Generated by the code it checks. Regenerate only deliberately, and say why."]

def noteLines (note : List Char) : List String :=
  match note with
  | [] => []
  | c :: rest =>
    ("# " ++ String.ofList (takeLine (c :: rest)).1) :: noteLines (takeLine (c :: rest)).2
termination_by note.length
decreasing_by exact takeLine_length (c :: rest) (List.cons_ne_nil c rest)

def keyLines (key : GoldenKey) : List String :=
  [kMagic, "workload " ++ key.workload, "version " ++ toString key.version,
   "isa " ++ key.isa.describe, "seed " ++ hex16 key.seed,
   "footprint_bytes " ++ toString key.footprintBytes,
   "decomposition " ++ toString key.decomposition,
   "resolved_decomposition " ++ toString key.resolvedDecomposition,
   "units " ++ toString key.units]

def unitLine (index : Nat) (unit : UnitDigest) : String :=
  "unit " ++ toString index ++ " input " ++ hex16 unit.input ++ " output " ++ hex16 unit.output

def unitLines (units : List UnitDigest) : List String :=
  units.mapIdx unitLine

def vectorLines (vector : GoldenVector) : List String :=
  keyLines vector.key ++ unitLines vector.units ++ ["digest " ++ hex16 vector.digest]

def formatGolden (vector : GoldenVector) (note : String) : String :=
  String.join ((kHeader ++ noteLines note.toList ++ vectorLines vector).map (· ++ "\n"))

end LoadForge.Verification.Golden
