import LoadForge.Reporters.JsonTree

namespace LoadForge.Reporters

open Framework Results Json List Numeral

section Recovery

/-- What is added to the name of a reading that was unavailable. -/
def unavailable : List Char := "_unavailable".toList

def absenceOf {ν : Type} (member reason : List Char × Node (List Char) ν) :
    Option (Absence (List Char)) :=
  match member.2, reason.2 with
  | .null, .object [(kindName, .text kind), (wordsName, .text words), (pathName, .text path),
      (detailName, .text detail), (remediationName, .text remediation)] =>
    if reason.1 = member.1 ++ unavailable ∧
        [kindName, wordsName, pathName, detailName, remediationName] =
          ["kind".toList, "words".toList, "path".toList, "detail".toList, "remediation".toList] then
      some ⟨kind, words, path, detail, remediation⟩
    else none
  | _, _ => none

/-- The members of an object, with each unavailable reading put together again. -/
def mergeAbsences {ν : Type} :
    List (List Char × Node (List Char) ν) → List (List Char × Node (List Char) ν)
  | [] => []
  | [member] => [member]
  | member :: reason :: members =>
    match absenceOf member reason with
    | some absence => (member.1, .absence absence) :: mergeAbsences members
    | none => member :: mergeAbsences (reason :: members)

mutual

def recover : Json → Node (List Char) ℚ
  | .null => .null
  | .bool b => .boolean b
  | .num n => .number n
  | .str text => .text text
  | .arr items => .array (recoverItems items)
  | .obj members => .object (mergeAbsences (recoverMembers members))

def recoverItems : List Json → List (Node (List Char) ℚ)
  | [] => []
  | item :: items => recover item :: recoverItems items

def recoverMembers : List (List Char × Json) → List (List Char × Node (List Char) ℚ)
  | [] => []
  | (name, json) :: members => (name, recover json) :: recoverMembers members

end

end Recovery

section Lossless

variable {R : Type}

def WellFormed (text : List UInt8) : Prop := ∃ cs, text = utf8 cs

variable {value : Number R → ℚ}

variable (members : List (List UInt8 × Document R))

end Lossless

/-- The text of a real is a JSON number that reads back as the real. -/
def RoundTrips {R : Type} (formatReal : R → List UInt8) (read : ℚ → R) : Prop :=
  ∀ x, ∃ n : Numeral, formatReal x = n.text ∧ read n.value = x

end LoadForge.Reporters
