import LoadForge.Reporters.JsonStrings

namespace LoadForge.Reporters

open Framework Results Json List Writes

section Layout

/-- Entries one to a line, a comma after all but the last. -/
def lines (depth : Nat) : List (List UInt8) → List UInt8
  | [] => []
  | entry :: entries =>
    indent (depth + 1) ++ entry ++ ending entries.isEmpty ++ lines depth entries

end Layout

section Members

variable {R : Type} (formatReal : R → List UInt8) (value : Number R → ℚ)

def absenceFields (absence : Absence (List UInt8)) : List (List UInt8 × List UInt8) :=
  [(bytesOf "kind", absence.kind), (bytesOf "words", absence.words), (bytesOf "path", absence.path),
   (bytesOf "detail", absence.detail), (bytesOf "remediation", absence.remediation)]

end Members

section Trees

variable {R : Type} (formatReal : R → List UInt8) (value : Number R → ℚ)

def absenceJson (absence : Absence (List UInt8)) : Json :=
  .obj ((absenceFields absence).map fun field => (lossy field.1, .str (lossy field.2)))

mutual

def jsonOf : Document R → Json
  | .null => .null
  | .boolean b => .bool b
  | .number n => .num (value n)
  | .text text => .str (lossy text)
  | .array items => .arr (jsonItems items)
  | .object members => .obj (jsonMembers members)
  | .absence absence => absenceJson absence

def jsonItems : List (Document R) → List Json
  | [] => []
  | item :: items => jsonOf item :: jsonItems items

def jsonMembers : List (List UInt8 × Document R) → List (List Char × Json)
  | [] => []
  | (key, node) :: members =>
    (match node.asAbsence with
      | some absence => [(lossy key, .null), (lossy (key ++ kUnavailable), absenceJson absence)]
      | none => [(lossy key, jsonOf node)]) ++ jsonMembers members

end

variable {formatReal value}

end Trees

end LoadForge.Reporters
