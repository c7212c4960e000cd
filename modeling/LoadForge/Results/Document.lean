import Mathlib.Tactic.Ring

namespace LoadForge.Results

/-- A reading that was unavailable: the kind of it, its words, and what the source gave. -/
structure Absence (τ : Type) where
  kind : τ
  words : τ
  path : τ
  detail : τ
  remediation : τ
  deriving DecidableEq

/-- A number of a document. A real is finite: other doubles are texts. -/
inductive Number (R : Type)
  | integer (value : Int64)
  | unsigned (value : UInt64)
  | real (value : R)
  deriving DecidableEq

inductive Node (τ ν : Type)
  | null
  | boolean (value : Bool)
  | number (value : ν)
  | text (value : τ)
  | array (items : List (Node τ ν))
  | object (members : List (τ × Node τ ν))
  | absence (value : Absence τ)

/-- A document as the reporters have it: its texts are bytes. -/
abbrev Document (R : Type) : Type := Node (List UInt8) (Number R)

def Absence.map {τ τ' : Type} (f : τ → τ') (value : Absence τ) : Absence τ' :=
  ⟨f value.kind, f value.words, f value.path, f value.detail, f value.remediation⟩

namespace Node

variable {τ ν τ' ν' : Type}

def asAbsence : Node τ ν → Option (Absence τ)
  | .absence value => some value
  | _ => none

def find [DecidableEq τ] (key : τ) : Node τ ν → Option (Node τ ν)
  | .object members => (members.find? fun member => member.1 = key).map Prod.snd
  | _ => none

def asUnsigned {R : Type} : Node τ (Number R) → Option UInt64
  | .number (.unsigned value) => some value
  | _ => none

mutual

/-- The tree with its texts and its numbers replaced. -/
def map (f : τ → τ') (g : ν → ν') : Node τ ν → Node τ' ν'
  | .null => .null
  | .boolean value => .boolean value
  | .number value => .number (g value)
  | .text value => .text (f value)
  | .array items => .array (mapItems f g items)
  | .object members => .object (mapMembers f g members)
  | .absence value => .absence (value.map f)

def mapItems (f : τ → τ') (g : ν → ν') : List (Node τ ν) → List (Node τ' ν')
  | [] => []
  | item :: items => item.map f g :: mapItems f g items

def mapMembers (f : τ → τ') (g : ν → ν') : List (τ × Node τ ν) → List (τ' × Node τ' ν')
  | [] => []
  | (key, value) :: members => (f key, value.map f g) :: mapMembers f g members

end

/-- What holds of a tree whenever it holds of the trees inside of it. -/
theorem induction {P : Node τ ν → Prop} (null : P .null) (boolean : ∀ value, P (.boolean value))
    (number : ∀ value, P (.number value)) (text : ∀ value, P (.text value))
    (array : ∀ items, (∀ item ∈ items, P item) → P (.array items))
    (object : ∀ members : List (τ × Node τ ν), (∀ member ∈ members, P member.2) →
      P (.object members))
    (absence : ∀ value, P (.absence value)) (node : Node τ ν) : P node :=
  @Node.rec τ ν P (fun items => ∀ item ∈ items, P item)
    (fun members => ∀ member ∈ members, P member.2) (fun member => P member.2)
    null boolean number text array object absence nofun
    (fun _ _ hitem hitems => List.forall_mem_cons.mpr ⟨hitem, hitems⟩) nofun
    (fun _ _ hmember hmembers => List.forall_mem_cons.mpr ⟨hmember, hmembers⟩)
    (fun _ _ hvalue => hvalue) node

end Node

end LoadForge.Results
