import LoadForge.Framework.Csv
import LoadForge.Framework.JsonReading
import LoadForge.Reporters.CsvText
import LoadForge.Results.Places

namespace LoadForge.Reporters

open Framework Results List Option

section Leaves

variable {R : Type} (formatReal : R → List UInt8)

/-- The field of a node from that of the node it is in. -/
def extendField (field : List UInt8) : Step (List UInt8) → List UInt8
  | .key name => if field.isEmpty then name else field ++ bytesOf "." ++ name
  | .index number => field ++ bytesOf "[" ++ Json.digitBytes number ++ bytesOf "]"

def fieldOf (steps : List (Step (List UInt8))) : List UInt8 := steps.foldl extendField []

def leafValue : Document R → List UInt8
  | .boolean value => if value then bytesOf "true" else bytesOf "false"
  | .number (.integer value) =>
    (if value.toInt < 0 then bytesOf "-" else []) ++ Json.digitBytes value.toInt.natAbs
  | .number (.unsigned value) => Json.digitBytes value.toNat
  | .number (.real value) => formatReal value
  | .text value => value
  | _ => []

def leafStatus : Document R → List UInt8
  | .null => bytesOf "absent"
  | .array _ | .object _ => bytesOf "empty"
  | .absence absence => absence.kind
  | _ => bytesOf "present"

def leafReason : Document R → List UInt8
  | .null => bytesOf "not recorded"
  | .array _ => bytesOf "no items"
  | .object _ => bytesOf "no members"
  | .absence absence => absence.words
  | _ => []

/-- A text of an absence, and nothing for what is none. -/
def absenceText (text : Absence (List UInt8) → List UInt8) (leaf : Document R) : List UInt8 :=
  (leaf.asAbsence.map text).getD []

def leafRow (version field : List UInt8) (leaf : Document R) : Row where
  version := version
  field := field
  value := leafValue formatReal leaf
  status := leafStatus leaf
  reason := leafReason leaf
  sourcePath := absenceText Absence.path leaf
  detail := absenceText Absence.detail leaf
  remediation := absenceText Absence.remediation leaf

theorem decimal_eq (number : Nat) : decimal number = Json.digitBytes number :=
  Json.bytesOf_repr number

theorem writeNumber_eq (value : Number R) :
    writeNumber formatReal value = leafValue formatReal (.number value) := by
  cases value with
  | integer value => exact Json.bytesOf_toString value.toInt
  | unsigned value => exact decimal_eq value.toNat
  | real value => rfl

variable (version : List UInt8) (field : List UInt8)

theorem flatten_leaf {node : Document R} (h : node.children = []) :
    flatten formatReal version field node = appendRow (leafRow formatReal version field node) := by
  cases node with
  | array items =>
    cases items with
    | nil => rfl
    | cons item items => cases h
  | object members =>
    cases members with
    | nil => rfl
    | cons member members => cases h
  | number value =>
    rw [flatten, writeNumber_eq]
    rfl
  | _ => rfl

def flattenChild (field : List UInt8) (child : Step (List UInt8) × Document R) : List UInt8 :=
  flatten formatReal version (extendField field child.1) child.2

theorem flattenItems_eq (index : Nat) (items : List (Document R)) :
    flattenItems formatReal version field index items =
      ((items.zipIdx index).map fun entry => (Step.index entry.2, entry.1)).flatMap
        (flattenChild formatReal version field) := by
  induction items generalizing index with
  | nil => rfl
  | cons item items ih =>
    rw [flattenItems, ih, zipIdx_cons, map_cons, flatMap_cons, decimal_eq]
    rfl

theorem flattenMembers_eq (members : List (List UInt8 × Document R)) :
    flattenMembers formatReal version field members =
      (members.map fun member => (Step.key member.1, member.2)).flatMap
        (flattenChild formatReal version field) := by
  induction members with
  | nil => rfl
  | cons member members ih =>
    rw [flattenMembers, ih, map_cons, flatMap_cons]
    rfl

theorem flatten_children {node : Document R} (h : node.children ≠ []) :
    flatten formatReal version field node =
      node.children.flatMap (flattenChild formatReal version field) := by
  cases node with
  | array items =>
    cases items with
    | nil => exact absurd rfl h
    | cons item items =>
      rw [flatten, if_neg (by simp), flattenItems_eq]
      rfl
  | object members =>
    cases members with
    | nil => exact absurd rfl h
    | cons member members =>
      rw [flatten, if_neg (by simp), flattenMembers_eq]
      rfl
  | _ => exact absurd rfl h

theorem flatten_leaves (node : Document R) :
    flatten formatReal version field node =
      node.leaves.flatMap fun leaf =>
        appendRow (leafRow formatReal version (leaf.steps.foldl extendField field) leaf.node) := by
  induction node using Node.induction_children generalizing field with
  | h node ih =>
    by_cases hchildren : node.children = []
    · rw [flatten_leaf formatReal version field hchildren, Node.leaves_eq_self hchildren,
        flatMap_singleton]
      rfl
    · rw [flatten_children formatReal version field hchildren, Node.leaves_eq_below hchildren,
        flatMap_assoc]
      have hentries : node.children = node.children.zipIdx.map Prod.fst :=
        (zipIdx_map_fst 0 node.children).symm
      rw [hentries, flatMap_map, ← hentries]
      apply flatMap_congr
      intro entry hentry
      rw [flattenChild, ih _ (fst_mem_of_mem_zipIdx hentry), Node.leavesBelow, flatMap_map]
      rfl

end Leaves

section Rows

def Row.cells (row : Row) : List (List UInt8) :=
  [row.version, row.field, row.value, row.status, row.reason, row.sourcePath, row.detail,
    row.remediation]

theorem csvField_writes (text : List UInt8) : Csv.WritesField (csvField text) text := by
  unfold csvField
  split_ifs with h
  · have hquote : bytesOf "\"" = [Csv.quote] := rfl
    rw [hquote, append_assoc, singleton_append]
    exact Csv.WritesField.quoted text
  · apply Csv.WritesField.plain
    intro b hb
    have hbytes : bytesOf ",\"\r\n" = [Csv.comma, Csv.quote, 0x0D, 0x0A] := rfl
    have hnone : (bytesOf ",\"\r\n").contains b = false := by
      cases hb' : (bytesOf ",\"\r\n").contains b with
      | false => rfl
      | true => exact absurd (List.any_eq_true.mpr ⟨b, hb, hb'⟩) h
    rw [hbytes] at hnone
    simpa [Csv.isText, and_assoc] using hnone

theorem writesRecord_cells (cell : List UInt8) (cells : List (List UInt8)) :
    Csv.WritesRecord (csvField cell ++ cells.flatMap fun cell => bytesOf "," ++ csvField cell)
      (cell :: cells) := by
  induction cells generalizing cell with
  | nil =>
    rw [flatMap_nil, append_nil]
    exact Csv.WritesRecord.last (csvField_writes cell)
  | cons next cells ih =>
    rw [flatMap_cons]
    exact Csv.WritesRecord.more (csvField_writes cell) (ih next)

theorem appendRow_eq (row : Row) :
    ∃ text, Csv.WritesRecord text row.cells ∧ appendRow row = text ++ Csv.recordEnd :=
  ⟨_, writesRecord_cells row.version _, rfl⟩

def headerCells : List (List UInt8) :=
  [bytesOf "schema_version", bytesOf "field", bytesOf "value", bytesOf "status", bytesOf "reason",
    bytesOf "source_path", bytesOf "detail", bytesOf "remediation"]

theorem header_writes : Csv.WritesRecord kHeader headerCells :=
  writesRecord_cells (bytesOf "schema_version") headerCells.tail

theorem parse_rows (rows : List Row) :
    Csv.parse (kHeader ++ kRecordEnd ++ rows.flatMap appendRow) =
      some (headerCells :: rows.map Row.cells) := by
  have htexts : ∃ texts, Forall₂ Csv.WritesRecord texts (rows.map Row.cells) ∧
      rows.flatMap appendRow = texts.flatMap (· ++ Csv.recordEnd) := by
    induction rows with
    | nil => exact ⟨[], Forall₂.nil, rfl⟩
    | cons row rows ih =>
      obtain ⟨texts, hwrites, htexts⟩ := ih
      obtain ⟨text, hrow, htext⟩ := appendRow_eq row
      refine ⟨text :: texts, Forall₂.cons hrow hwrites, ?_⟩
      simp [htext, htexts]
  obtain ⟨texts, hwrites, htexts⟩ := htexts
  rw [htexts]
  exact Csv.parse_of_writes (Forall₂.cons header_writes hwrites) (cons_ne_nil _ _)

end Rows

section Fields

def dot : UInt8 := 0x2E
def bracket : UInt8 := 0x5B

def Plain : Step (List UInt8) → Prop
  | .key name => name ≠ [] ∧ dot ∉ name ∧ bracket ∉ name
  | .index _ => True

def stepText : Step (List UInt8) → List UInt8
  | .key name => dot :: name
  | .index number => bracket :: (Json.digitBytes number ++ [0x5D])

theorem foldl_extendField (field : List UInt8) (steps : List (Step (List UInt8)))
    (h : field ≠ []) : steps.foldl extendField field = field ++ steps.flatMap stepText := by
  induction steps generalizing field with
  | nil => exact (append_nil field).symm
  | cons step steps ih =>
    have hstep : extendField field step = field ++ stepText step := by
      cases step with
      | key name =>
        rw [extendField, if_neg (by simpa using h), append_assoc]
        rfl
      | index number =>
        rw [extendField, append_assoc, append_assoc]
        rfl
    rw [foldl_cons, hstep, ih _ (by simp [h]), flatMap_cons, append_assoc]

def inName (b : UInt8) : Bool := b != dot && b != bracket

theorem inName_of_plain {name : List UInt8} (h : dot ∉ name ∧ bracket ∉ name) :
    ∀ b ∈ name, inName b = true := by
  intro b hb
  have hdot : b ≠ dot := fun hsame => h.1 (hsame ▸ hb)
  have hbracket : b ≠ bracket := fun hsame => h.2 (hsame ▸ hb)
  rw [inName, bne_iff_ne.mpr hdot, bne_iff_ne.mpr hbracket]
  rfl

theorem head_stepText (steps : List (Step (List UInt8))) (b : UInt8)
    (hb : (steps.flatMap stepText).head? = some b) : inName b = false := by
  cases steps with
  | nil => cases hb
  | cons step steps =>
    cases step with
    | key name =>
      cases hb
      rfl
    | index number =>
      cases hb
      rfl

theorem digitBytes_inj {number other : Nat} (h : Json.digitBytes number = Json.digitBytes other) :
    number = other := by
  rw [← Json.digitsValue_digitBytes number, h, Json.digitsValue_digitBytes]

theorem digitBytes_ne (number : Nat) (b : UInt8) (hb : b ∈ Json.digitBytes number) :
    (b != 0x5D) = true := by
  have hdigit : Json.isDigit b = true := (Json.Numeral.ofInt number).whole_all b hb
  rw [bne_iff_ne]
  intro hsame
  rw [hsame] at hdigit
  exact absurd hdigit (by decide)

theorem stepTexts_inj {steps others : List (Step (List UInt8))}
    (hsteps : ∀ step ∈ steps, Plain step) (hothers : ∀ step ∈ others, Plain step)
    (h : steps.flatMap stepText = others.flatMap stepText) : steps = others := by
  induction steps generalizing others with
  | nil =>
    cases others with
    | nil => rfl
    | cons other others => cases other <;> cases h
  | cons step steps ih =>
    cases others with
    | nil => cases step <;> cases h
    | cons other others =>
      obtain ⟨hstep, hsteps'⟩ := forall_mem_cons.mp hsteps
      obtain ⟨hother, hothers'⟩ := forall_mem_cons.mp hothers
      rw [flatMap_cons, flatMap_cons] at h
      cases step with
      | key name =>
        cases other with
        | key name' =>
          obtain ⟨hname, hrest⟩ := front_inj (inName_of_plain hstep.2) (inName_of_plain hother.2)
            (head_stepText steps) (head_stepText others) (cons.inj h).2
          rw [hname, ih hsteps' hothers' hrest]
        | index number => cases h
      | index number =>
        cases other with
        | key name' => cases h
        | index number' =>
          have htail : Json.digitBytes number ++ [0x5D] ++ steps.flatMap stepText =
              Json.digitBytes number' ++ [0x5D] ++ others.flatMap stepText := (cons.inj h).2
          rw [append_assoc, append_assoc] at htail
          obtain ⟨hnumber, hrest⟩ := front_inj (p := (· != 0x5D)) (digitBytes_ne number)
            (digitBytes_ne number') (fun b hb => by cases hb; rfl) (fun b hb => by cases hb; rfl) htail
          rw [digitBytes_inj hnumber, ih hsteps' hothers' (cons.inj hrest).2]

theorem fieldOf_inj {name name' : List UInt8} {steps steps' : List (Step (List UInt8))}
    (hname : Plain (.key name)) (hname' : Plain (.key name'))
    (hsteps : ∀ step ∈ steps, Plain step) (hsteps' : ∀ step ∈ steps', Plain step)
    (h : fieldOf (.key name :: steps) = fieldOf (.key name' :: steps')) :
    Step.key name :: steps = .key name' :: steps' := by
  have hfield (name : List UInt8) (steps : List (Step (List UInt8))) (hname : name ≠ []) :
      fieldOf (.key name :: steps) = name ++ steps.flatMap stepText :=
    foldl_extendField name steps hname
  rw [hfield name steps hname.1, hfield name' steps' hname'.1] at h
  obtain ⟨hsame, hrest⟩ := front_inj (inName_of_plain hname.2) (inName_of_plain hname'.2)
    (head_stepText steps) (head_stepText steps') h
  rw [hsame, stepTexts_inj hsteps hsteps' hrest]

end Fields

section Reports

variable {R : Type}

/-- The keys of each object are distinct, and none is empty or has a dot or a bracket. -/
def WellKeyed (document : Document R) : Prop :=
  ∀ place steps members, document.descend place = some (steps, .object members) →
    (members.map Prod.fst).Nodup ∧
      ∀ member ∈ members, member.1 ≠ [] ∧ dot ∉ member.1 ∧ bracket ∉ member.1

section

variable {document : Document R} (h : WellKeyed document)
include h

theorem WellKeyed.child {child : Document R} {entry : Nat}
    {step : Step (List UInt8)} (hchild : document.children[entry]? = some (step, child)) :
    WellKeyed child := by
  intro place steps members hdescend
  exact h (entry :: place) (step :: steps) members
    (Node.descend_cons.mpr ⟨step, child, steps, hchild, hdescend, rfl⟩)

theorem WellKeyed.plain {child : Document R}
    {step : Step (List UInt8)} (hchild : (step, child) ∈ document.children) : Plain step := by
  cases document with
  | array items =>
    obtain ⟨entry, -, hsame⟩ := List.mem_map.mp hchild
    cases hsame
    trivial
  | object members =>
    obtain ⟨member, hmember, hsame⟩ := List.mem_map.mp hchild
    cases hsame
    exact (h [] [] members rfl).2 member hmember
  | _ => cases hchild

theorem steps_plain {inner : Document R} {place : List Nat}
    {steps : List (Step (List UInt8))} (hdescend : document.descend place = some (steps, inner)) :
    ∀ step ∈ steps, Plain step := by
  induction place generalizing document steps with
  | nil =>
    cases hdescend
    exact nofun
  | cons entry place ih =>
    obtain ⟨step, child, rest, hchild, hrest, rfl⟩ := Node.descend_cons.mp hdescend
    exact forall_mem_cons.mpr ⟨h.plain (mem_of_getElem? hchild), ih (h.child hchild) hrest⟩

theorem children_nodup (place : List Nat)
    (steps : List (Step (List UInt8))) (inner : Document R)
    (hdescend : document.descend place = some (steps, inner)) :
    (inner.children.map Prod.fst).Nodup := by
  cases inner with
  | array items =>
    have hindices : ((Node.array items : Document R).children.map Prod.fst) =
        (List.range' 0 items.length).map Step.index := by
      rw [← zipIdx_map_snd 0 items, Node.children, List.map_map, List.map_map]
      rfl
    rw [hindices]
    exact (nodup_range' 1).map fun _ _ hsame => Step.index.inj hsame
  | object members =>
    have hkeys : ((Node.object members : Document R).children.map Prod.fst) =
        (members.map Prod.fst).map Step.key := by
      rw [Node.children, List.map_map, List.map_map]
      rfl
    rw [hkeys]
    exact (h place steps members hdescend).1.map fun _ _ hsame => Step.key.inj hsame
  | _ => exact nodup_nil

end

theorem fieldOf_ne {members : List (List UInt8 × Document R)} {inner other : Document R}
    (h : WellKeyed (.object members)) {place place' : List Nat}
    {steps steps' : List (Step (List UInt8))} (hplace : place ≠ []) (hplace' : place' ≠ [])
    (hdescend : (Node.object members).descend place = some (steps, inner))
    (hdescend' : (Node.object members).descend place' = some (steps', other))
    (hne : place ≠ place') : fieldOf steps ≠ fieldOf steps' := by
  intro hfield
  have hplain := steps_plain h hdescend
  have hplain' := steps_plain h hdescend'
  have hkey {place : List Nat} {steps : List (Step (List UInt8))} {inner : Document R}
      (hplace : place ≠ []) (hdescend : (Node.object members).descend place = some (steps, inner)) :
      ∃ name rest, steps = .key name :: rest := by
    cases place with
    | nil => exact absurd rfl hplace
    | cons entry place =>
      obtain ⟨step, child, rest, hchild, -, rfl⟩ := Node.descend_cons.mp hdescend
      obtain ⟨member, -, hsame⟩ := List.mem_map.mp (mem_of_getElem? hchild)
      cases hsame
      exact ⟨member.1, rest, rfl⟩
  obtain ⟨name, rest, rfl⟩ := hkey hplace hdescend
  obtain ⟨name', rest', rfl⟩ := hkey hplace' hdescend'
  obtain ⟨hname, hrest⟩ := forall_mem_cons.mp hplain
  obtain ⟨hname', hrest'⟩ := forall_mem_cons.mp hplain'
  have hsame := fieldOf_inj hname hname' hrest hrest' hfield
  rw [← hsame] at hdescend'
  exact hne (Node.descend_inj (children_nodup h) hdescend hdescend')

theorem toCsv_eq {formatReal : R → List UInt8} {document : Document R} {version : UInt64}
    (h : (document.find (bytesOf "schema_version")).bind Node.asUnsigned = some version) :
    toCsv formatReal document = some (kHeader ++ kRecordEnd ++
      (document.leaves.map fun leaf =>
        leafRow formatReal (Json.digitBytes version.toNat) (fieldOf leaf.steps) leaf.node).flatMap
          appendRow) := by
  obtain ⟨node, hfind, hnode⟩ := bind_eq_some_iff.mp h
  rw [toCsv, hfind, bind_eq_bind, bind_some, hnode, bind_eq_bind,
    bind_some, flatten_leaves, flatMap_map, decimal_eq]
  rfl

theorem mem_places {document : Document R} {place : List Nat} :
    place ∈ document.leaves.map Leaf.place ↔ document.IsLeaf place := by
  rw [List.mem_map]
  constructor
  · intro h
    obtain ⟨leaf, hleaf, rfl⟩ := h
    exact ⟨leaf.steps, leaf.node, Node.mem_leaves.mp hleaf⟩
  · intro h
    obtain ⟨steps, inner, hinner⟩ := h
    exact ⟨⟨place, steps, inner⟩, Node.mem_leaves.mpr hinner, rfl⟩

theorem place_ne_nil {members : List (List UInt8 × Document R)} {key : List UInt8}
    {value : Document R} (hfind : (Node.object members).find key = some value) {place : List Nat}
    (hleaf : (Node.object members).IsLeaf place) : place ≠ [] := by
  intro hplace
  obtain ⟨steps, inner, hdescend, hchildren⟩ := hleaf
  rw [hplace] at hdescend
  cases hdescend
  rw [map_eq_nil_iff.mp hchildren] at hfind
  cases hfind

/-- The rows of a report are its leaves in their order, one row of eight cells for each. -/
theorem csv_reports_keep_their_leaves (formatReal : R → List UInt8)
    (members : List (List UInt8 × Document R)) (version : UInt64)
    (hversion : ((Node.object members).find (bytesOf "schema_version")).bind Node.asUnsigned =
      some version) :
    ∃ text places rows,
      toCsv formatReal (.object members) = some text ∧
      Csv.parse text = some (headerCells :: rows) ∧
      places.Pairwise (· < ·) ∧
      (∀ place, place ∈ places ↔ (Node.object members).IsLeaf place) ∧
      List.Forall₂ (fun place row => ∃ steps leaf,
        (Node.object members).descend place = some (steps, leaf) ∧
        row = (leafRow formatReal (Json.digitBytes version.toNat) (fieldOf steps) leaf).cells)
        places rows ∧
      (∀ row ∈ rows, row.length = 8) ∧
      (WellKeyed (.object members) → ∀ place ∈ places, ∀ place' ∈ places, place ≠ place' →
        ∀ steps leaf steps' leaf',
          (Node.object members).descend place = some (steps, leaf) →
          (Node.object members).descend place' = some (steps', leaf') →
          fieldOf steps ≠ fieldOf steps') := by
  obtain ⟨node, hfind, -⟩ := bind_eq_some_iff.mp hversion
  refine ⟨_, (Node.object members).leaves.map Leaf.place, _, toCsv_eq hversion, parse_rows _,
    ?_, fun place => mem_places, ?_, ?_, ?_⟩
  · exact pairwise_map.mpr (Node.pairwise_leaves _)
  · rw [List.map_map, forall₂_map_left_iff, forall₂_map_right_iff, forall₂_same]
    intro leaf hleaf
    exact ⟨leaf.steps, leaf.node, (Node.mem_leaves.mp hleaf).1, rfl⟩
  · intro row hrow
    obtain ⟨_, -, rfl⟩ := List.mem_map.mp hrow
    rfl
  · intro hkeys place hplace place' hplace' hne steps leaf steps' leaf' hdescend hdescend'
    exact fieldOf_ne hkeys (place_ne_nil hfind (mem_places.mp hplace))
      (place_ne_nil hfind (mem_places.mp hplace')) hdescend hdescend' hne

/-- A version, a reading with a comma in its key, and an array with nothing in it. -/
def smallTable : List (List UInt8 × Document Bool) :=
  [(bytesOf "schema_version", .number (.unsigned 7)),
    (bytesOf "a,b", .array [.text (bytesOf "\"\r\n"), .number (.real true),
      .number (.integer (-12))]),
    (bytesOf "none", .array [])]

theorem small_table_keeps_its_leaves :
    ((Node.object smallTable).find (bytesOf "schema_version")).bind Node.asUnsigned = some 7 ∧
      ∃ text rows, toCsv (fun _ : Bool => bytesOf "0,5") (.object smallTable) = some text ∧
        Csv.parse text = some (headerCells :: rows) ∧ ∀ row ∈ rows, row.length = 8 := by
  have hversion : ((Node.object smallTable).find (bytesOf "schema_version")).bind
      Node.asUnsigned = some 7 := by decide +kernel
  obtain ⟨text, -, rows, htext, hparse, -, -, -, hcells, -⟩ :=
    csv_reports_keep_their_leaves (fun _ : Bool => bytesOf "0,5") smallTable 7 hversion
  exact ⟨hversion, text, rows, htext, hparse, hcells⟩

end Reports

end LoadForge.Reporters
