import LoadForge.Reporters.JsonText

namespace LoadForge.Reporters

open Framework Results

def kRecordEnd : List UInt8 := bytesOf "\r\n"

def kHeader : List UInt8 :=
  bytesOf "schema_version,field,value,status,reason,source_path,detail,remediation"

def csvField (text : List UInt8) : List UInt8 :=
  if text.any fun c => (bytesOf ",\"\r\n").contains c then
    bytesOf "\"" ++ (text.flatMap fun c => if c = 0x22 then [0x22, c] else [c]) ++ bytesOf "\""
  else text

structure Row where
  version : List UInt8
  field : List UInt8
  value : List UInt8
  status : List UInt8
  reason : List UInt8
  sourcePath : List UInt8
  detail : List UInt8
  remediation : List UInt8

def appendRow (row : Row) : List UInt8 :=
  csvField row.version ++
    ([row.field, row.value, row.status, row.reason, row.sourcePath, row.detail,
      row.remediation].flatMap fun cell => bytesOf "," ++ csvField cell) ++
    kRecordEnd

def presentRow (version field value : List UInt8) : Row :=
  ⟨version, field, value, bytesOf "present", [], [], [], []⟩

def missingRow (version field : List UInt8) (status reason : String) : Row :=
  ⟨version, field, [], bytesOf status, bytesOf reason, [], [], []⟩

section Flatten

variable {R : Type} (formatReal : R → List UInt8) (version : List UInt8)

mutual

def flatten (field : List UInt8) : Document R → List UInt8
  | .null => appendRow (missingRow version field "absent" "not recorded")
  | .boolean value =>
    appendRow (presentRow version field (if value then bytesOf "true" else bytesOf "false"))
  | .number value => appendRow (presentRow version field (writeNumber formatReal value))
  | .text value => appendRow (presentRow version field value)
  | .array items =>
    if items.isEmpty then appendRow (missingRow version field "empty" "no items")
    else flattenItems field 0 items
  | .object members =>
    if members.isEmpty then appendRow (missingRow version field "empty" "no members")
    else flattenMembers field members
  | .absence absence =>
    appendRow ⟨version, field, [], absence.kind, absence.words, absence.path, absence.detail,
      absence.remediation⟩

def flattenItems (field : List UInt8) (index : Nat) : List (Document R) → List UInt8
  | [] => []
  | item :: items =>
    flatten (field ++ bytesOf "[" ++ decimal index ++ bytesOf "]") item ++
      flattenItems field (index + 1) items

def flattenMembers (field : List UInt8) : List (List UInt8 × Document R) → List UInt8
  | [] => []
  | (key, value) :: members =>
    flatten (if field.isEmpty then key else field ++ bytesOf "." ++ key) value ++
      flattenMembers field members

end

end Flatten

/-- Nothing where the document has no unsigned schema version. -/
def toCsv {R : Type} (formatReal : R → List UInt8) (document : Document R) :
    Option (List UInt8) := do
  let schemaVersion ← document.find (bytesOf "schema_version")
  let version ← schemaVersion.asUnsigned
  some (kHeader ++ kRecordEnd ++ flatten formatReal (decimal version.toNat) [] document)

end LoadForge.Reporters
