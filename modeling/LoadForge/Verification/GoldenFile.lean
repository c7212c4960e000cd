import LoadForge.Framework.LineReader
import LoadForge.Verification.GoldenText

namespace LoadForge.Verification.Golden

open LoadForge.Core Framework Primitives Workloads List

section Reading

def inView (s : ParserState) : List String := contentLines s.rest

theorem nextLine_spec (rest : List Char) (number : Nat) :
    (nextLine rest number).1.toList ++ inView (nextLine rest number).2 = contentLines rest ∧
      ((nextLine rest number).1 = none → contentLines rest = []) := by
  fun_induction nextLine rest number with
  | case1 number => exact ⟨rfl, fun _ => rfl⟩
  | case2 rest number hne line hcontent =>
    rw [contentLines_takeLine rest, if_pos hcontent]
    exact ⟨rfl, nofun⟩
  | case3 rest number hne line hcomment ih =>
    rw [contentLines_takeLine rest, if_neg hcomment, nil_append]
    exact ih

theorem fail_refuses {α : Type} (detail : String) (s : ParserState) :
    ∃ e, (fail detail : Parser α).run s = .error e :=
  ⟨_, rfl⟩

theorem fail_takes {α : Type} (detail : String) :
    Takes inView (fail detail : Parser α) fun _ _ => False :=
  Takes.refuse (fail_refuses detail)

/-- A reader that refuses the end takes the next line, and what it takes after that. -/
theorem next_takes {α : Type} {f : Option String → Parser α}
    {written : String → α → List String → Prop}
    (hend : ∀ s, ∃ e, (f none).run s = .error e)
    (hline : ∀ line, Takes inView (f (some line)) (written line)) :
    Takes inView (next >>= f) fun a front =>
      ∃ line after, written line a after ∧ front = line :: after := by
  intro s a rest
  obtain ⟨hview, hnone⟩ := nextLine_spec s.rest s.number
  have hrun : (next >>= f).run s =
      (f (nextLine s.rest s.number).1).run (nextLine s.rest s.number).2 := rfl
  rw [Leaves, hrun]
  cases hread : (nextLine s.rest s.number).1 with
  | none =>
    constructor
    · rintro ⟨s', hok, -⟩
      obtain ⟨e, he⟩ := hend (nextLine s.rest s.number).2
      rw [he] at hok
      cases hok
    · rintro ⟨front, ⟨line, after, -, rfl⟩, hfront⟩
      rw [inView, hnone hread] at hfront
      cases hfront
  | some line =>
    rw [hread] at hview
    have hsplit : inView s = line :: inView (nextLine s.rest s.number).2 := hview.symm
    have htakes := hline line (nextLine s.rest s.number).2 a rest
    rw [Leaves] at htakes
    rw [htakes, hsplit]
    constructor
    · rintro ⟨after, hafter, hrest⟩
      exact ⟨line :: after, ⟨line, after, hafter, rfl⟩, by rw [hrest, cons_append]⟩
    · rintro ⟨front, ⟨other, after, hafter, rfl⟩, hfront⟩
      rw [cons_append, cons.injEq] at hfront
      obtain ⟨rfl, hrest⟩ := hfront
      exact ⟨after, hafter, hrest⟩

theorem prefix_then_iff {before text : List Char} {c : Char} :
    before <+: text ∧ text[before.length]? = some c ↔ ∃ after, text = before ++ c :: after := by
  constructor
  · rintro ⟨⟨after, rfl⟩, hc⟩
    rw [getElem?_append_right (Nat.le_refl _), Nat.sub_self] at hc
    cases after with
    | nil => cases hc
    | cons d after =>
      cases hc
      exact ⟨after, rfl⟩
  · rintro ⟨after, rfl⟩
    refine ⟨prefix_append _ _, ?_⟩
    rw [getElem?_append_right (Nat.le_refl _), Nat.sub_self]
    rfl

theorem keyed_takes (key : String) :
    Takes inView (keyed key) fun value front => front = [key ++ " " ++ value] := by
  have hline : ∀ line : String,
      Takes inView (if key.toList <+: line.toList ∧ line.toList[key.toList.length]? = some ' ' then
          (pure (String.ofList (line.toList.drop (key.toList.length + 1))) : Parser String)
        else fail ("expected '" ++ key ++ " ...', found '" ++ line ++ "'"))
        fun value front => line = key ++ " " ++ value ∧ front = [] := by
    intro line
    by_cases hkey : key.toList <+: line.toList ∧ line.toList[key.toList.length]? = some ' '
    · rw [if_pos hkey]
      obtain ⟨after, hafter⟩ := prefix_then_iff.mp hkey
      have hdrop : line.toList.drop (key.toList.length + 1) = after := by
        rw [hafter, ← drop_drop, drop_left]
        rfl
      apply (Takes.pure _).congr
      intro value front
      rw [hdrop, ← String.toList_inj, ← String.toList_inj, hafter]
      simp [eq_comm]
    · rw [if_neg hkey]
      apply (fail_takes _).congr
      intro value front
      simp only [false_iff, not_and]
      rintro rfl
      refine absurd (prefix_then_iff.mpr ⟨value.toList, ?_⟩) hkey
      simp
  apply (next_takes (fail_refuses _) hline).congr
  intro value front
  constructor
  · rintro ⟨line, after, ⟨rfl, rfl⟩, rfl⟩
    rfl
  · rintro rfl
    exact ⟨_, [], ⟨rfl, rfl⟩, rfl⟩

theorem exactly_takes (expected : String) :
    Takes inView (exactly expected) fun _ front => front = [expected] := by
  have hline : ∀ line : String,
      Takes inView (if line = expected then (pure () : Parser Unit)
        else fail ("expected '" ++ expected ++ "', found '" ++ line ++ "'"))
        fun _ front => line = expected ∧ front = [] := by
    intro line
    by_cases hsame : line = expected
    · rw [if_pos hsame]
      apply (Takes.pure _).congr
      simp [hsame]
    · rw [if_neg hsame]
      apply (fail_takes _).congr
      simp [hsame]
  apply (next_takes (fail_refuses _) hline).congr
  intro value front
  constructor
  · rintro ⟨line, after, ⟨rfl, rfl⟩, rfl⟩
    rfl
  · rintro rfl
    exact ⟨_, [], ⟨rfl, rfl⟩, rfl⟩

theorem orFail_takes {α : Type} (found : Option α) (detail : String) :
    Takes inView (orFail found detail) fun a front => found = some a ∧ front = [] := by
  cases found with
  | none =>
    apply (fail_takes _).congr
    simp
  | some value =>
    apply (Takes.pure _).congr
    simp [eq_comm]

theorem decimal_takes (what token : String) (limit : UInt64) :
    Takes inView (decimal what token limit) fun n front =>
      (token = toString n ∧ n ≤ limit) ∧ front = [] := by
  apply (orFail_takes (decimalOf token limit) _).congr
  intro n front
  rw [decimalOf_eq_some]

theorem hexadecimal_takes (what token : String) :
    Takes inView (hexadecimal what token) fun n front => token = hex16 n ∧ front = [] := by
  apply (orFail_takes (hexOf token) _).congr
  intro n front
  rw [hexOf_eq_some]

theorem parseHexadecimal_takes (key : String) :
    Takes inView (parseHexadecimal key) fun n front =>
      True ∧ front = [key ++ " " ++ hex16 n] := by
  apply ((keyed_takes key).then fun value => hexadecimal_takes key value).congr
  intro n front
  constructor
  · rintro ⟨value, rfl, rfl⟩
    exact ⟨trivial, rfl⟩
  · rintro ⟨-, rfl⟩
    exact ⟨_, rfl, rfl⟩

theorem parseDecimal_takes (key : String) (limit : UInt64) :
    Takes inView (parseDecimal key limit) fun n front =>
      n ≤ limit ∧ front = [key ++ " " ++ toString n] := by
  apply ((keyed_takes key).then fun value => decimal_takes key value limit).congr
  intro n front
  constructor
  · rintro ⟨value, rfl, rfl, hle⟩
    exact ⟨hle, rfl⟩
  · rintro ⟨hle, rfl⟩
    exact ⟨_, rfl, rfl, hle⟩

theorem parsePositive_takes (key : String) (limit : UInt64) (detail : String) :
    Takes inView (parsePositive key limit detail) fun n front =>
      (n ≤ limit ∧ n ≠ 0) ∧ front = [key ++ " " ++ toString n] := by
  have hcheck : ∀ number : UInt64,
      Takes inView (if number = 0 then (fail detail : Parser UInt64) else pure number)
        fun n front => (number ≠ 0 ∧ n = number) ∧ front = [] := by
    intro number
    apply (Takes.unless (fail_refuses detail) (Takes.pure number)).congr
    intro n front
    rw [and_assoc]
  apply ((parseDecimal_takes key limit).then hcheck).congr
  intro n front
  constructor
  · rintro ⟨number, ⟨hle, rfl⟩, hne, rfl⟩
    exact ⟨⟨hle, hne⟩, rfl⟩
  · rintro ⟨⟨hle, hne⟩, rfl⟩
    exact ⟨n, ⟨hle, rfl⟩, hne, rfl⟩

theorem parseWorkload_takes :
    Takes inView parseWorkload fun name front =>
      isValidName name = true ∧ front = ["workload" ++ " " ++ name] := by
  have hcheck : ∀ value : String,
      Takes inView (if ¬ isValidName value = true then
          (fail ("workload '" ++ value ++ "' is not a valid workload name") : Parser String)
        else pure value)
        fun name front => (isValidName value = true ∧ name = value) ∧ front = [] := by
    intro value
    apply (Takes.unless (fail_refuses _) (Takes.pure value)).congr
    intro name front
    rw [and_assoc, not_not]
  apply ((keyed_takes "workload").then hcheck).congr
  intro name front
  constructor
  · rintro ⟨value, rfl, hvalid, rfl⟩
    exact ⟨hvalid, rfl⟩
  · rintro ⟨hvalid, rfl⟩
    exact ⟨name, rfl, hvalid, rfl⟩

theorem parseIsaPath_eq_some {text : String} {path : IsaPath} :
    parseIsaPath text = some path ↔ text = path.describe := by
  constructor
  · intro h
    have hfound := find?_some h
    exact (beq_iff_eq.mp hfound).symm
  · rintro rfl
    exact parseIsaPath_describe path

theorem parseIsa_takes :
    Takes inView parseIsa fun path front => True ∧ front = ["isa" ++ " " ++ path.describe] := by
  apply ((keyed_takes "isa").then fun value => orFail_takes (parseIsaPath value) _).congr
  intro path front
  constructor
  · rintro ⟨value, rfl, hpath⟩
    rw [parseIsaPath_eq_some.mp hpath]
    exact ⟨trivial, rfl⟩
  · rintro ⟨-, rfl⟩
    exact ⟨_, rfl, parseIsaPath_describe path⟩

end Reading

section Vector

structure GoldenKey.Valid (key : GoldenKey) : Prop where
  workload : isValidName key.workload = true
  version : 1 ≤ key.version.toNat
  resolvedDecomposition : 1 ≤ key.resolvedDecomposition.toNat
  units : 1 ≤ key.units.toNat

/-- A vector that a file can hold: a valid key and the units it says. -/
structure GoldenVector.Valid (vector : GoldenVector) : Prop where
  key : vector.key.Valid
  units : vector.units.length = vector.key.units.toNat

theorem toString_toUInt32 {n : UInt64} (hn : n ≤ kU32) : toString n.toUInt32 = toString n := by
  have hle : n.toNat ≤ 2 ^ 32 - 1 := UInt64.le_iff_toNat_le.mp hn
  have hsame : n.toUInt32.toNat = n.toNat := by
    rw [UInt64.toNat_toUInt32]
    omega
  change n.toUInt32.toNat.repr = n.toNat.repr
  rw [hsame]

theorem toUInt32_pos {n : UInt64} (hn : n ≤ kU32) (hne : n ≠ 0) : 1 ≤ n.toUInt32.toNat := by
  have hle : n.toNat ≤ 2 ^ 32 - 1 := UInt64.le_iff_toNat_le.mp hn
  have hpos : n.toNat ≠ 0 := fun h => hne (UInt64.toNat_inj.mp h)
  rw [UInt64.toNat_toUInt32]
  omega

theorem toUInt64_le (n : UInt32) : n.toUInt64 ≤ kU32 := by
  have hlt := n.toNat_lt
  rw [UInt64.le_iff_toNat_le, UInt32.toNat_toUInt64]
  change n.toNat ≤ 2 ^ 32 - 1
  omega

theorem le_kU64 (n : UInt64) : n ≤ kU64 := by
  have hlt := n.toNat_lt
  rw [UInt64.le_iff_toNat_le]
  change n.toNat ≤ 2 ^ 64 - 1
  omega

theorem toUInt64_ne_zero {n : UInt32} (hn : 1 ≤ n.toNat) : n.toUInt64 ≠ 0 := by
  intro hzero
  have hnat := congrArg UInt64.toNat hzero
  rw [UInt32.toNat_toUInt64] at hnat
  change n.toNat = 0 at hnat
  omega

theorem keyLines_eq (key : GoldenKey) :
    keyLines key =
      [kMagic, "workload" ++ " " ++ key.workload, "version" ++ " " ++ toString key.version,
       "isa" ++ " " ++ key.isa.describe, "seed" ++ " " ++ hex16 key.seed,
       "footprint_bytes" ++ " " ++ toString key.footprintBytes,
       "decomposition" ++ " " ++ toString key.decomposition,
       "resolved_decomposition" ++ " " ++ toString key.resolvedDecomposition,
       "units" ++ " " ++ toString key.units] := by
  rfl

theorem parseKey_takes :
    Takes inView parseKey fun key front => key.Valid ∧ front = keyLines key := by
  have hmagic : Takes inView (exactly kMagic) fun _ front => True ∧ front = [kMagic] := by
    apply (exactly_takes kMagic).congr
    simp
  apply (hmagic.item fun _ => parseWorkload_takes.item fun _ =>
    (parsePositive_takes "version" _ _).item fun _ => parseIsa_takes.item fun _ =>
    (parseHexadecimal_takes "seed").item fun _ =>
    (parseDecimal_takes "footprint_bytes" _).item fun _ =>
    (parseDecimal_takes "decomposition" _).item fun _ =>
    (parsePositive_takes "resolved_decomposition" _ _).item fun _ =>
    (parsePositive_takes "units" _ _).item fun _ => Takes.pure _).congr
  intro key front
  constructor
  · rintro ⟨-, -, _, ⟨workload, hworkload, _, ⟨version, ⟨hversion, hversion0⟩, _, ⟨isa, -, _,
      ⟨seed, -, _, ⟨footprint, -, _, ⟨decomposition, hdecomposition, _, ⟨resolved,
      ⟨hresolved, hresolved0⟩, _, ⟨units, ⟨-, hunits⟩, _, ⟨rfl, rfl⟩, rfl⟩, rfl⟩, rfl⟩, rfl⟩, rfl⟩,
      rfl⟩, rfl⟩, rfl⟩, rfl⟩
    have hunits0 : units.toNat ≠ 0 := fun h => hunits (UInt64.toNat_inj.mp h)
    refine ⟨⟨hworkload, toUInt32_pos hversion hversion0, toUInt32_pos hresolved hresolved0,
      Nat.one_le_iff_ne_zero.mpr hunits0⟩, ?_⟩
    rw [keyLines_eq, toString_toUInt32 hversion, toString_toUInt32 hdecomposition,
      toString_toUInt32 hresolved]
  · rintro ⟨hvalid, rfl⟩
    have hunits0 : key.units ≠ 0 := by
      intro hzero
      have hone := hvalid.units
      rw [hzero] at hone
      exact absurd hone (by decide)
    refine ⟨(), trivial, _, ⟨key.workload, hvalid.workload, _, ⟨key.version.toUInt64,
      ⟨toUInt64_le _, toUInt64_ne_zero hvalid.version⟩, _, ⟨key.isa, trivial, _, ⟨key.seed, trivial,
      _, ⟨key.footprintBytes, ?_, _, ⟨key.decomposition.toUInt64, toUInt64_le _, _,
      ⟨key.resolvedDecomposition.toUInt64, ⟨toUInt64_le _,
      toUInt64_ne_zero hvalid.resolvedDecomposition⟩, _, ⟨key.units, ⟨?_, hunits0⟩, _, ⟨?_, rfl⟩,
      rfl⟩, rfl⟩, rfl⟩, rfl⟩, rfl⟩, rfl⟩, rfl⟩, rfl⟩, ?_⟩
    · exact le_kU64 _
    · exact le_kU64 _
    · simp
    · exact keyLines_eq key

theorem parseDigests_takes (index : Nat) (value : List Char) :
    Takes inView (parseDigests index value) fun unit front =>
      value = (hex16 unit.input).toList ++ (kOutput.toList ++ (hex16 unit.output).toList) ∧
        front = [] := by
  have houtput : ∀ (token : String) (input : UInt64),
      Takes inView (hexadecimal "unit output digest" token >>= fun output =>
          (pure ⟨input, output⟩ : Parser UnitDigest))
        fun unit front => (unit.input = input ∧ token = hex16 unit.output) ∧ front = [] := by
    intro token input
    apply ((hexadecimal_takes "unit output digest" token).then fun output => Takes.pure _).congr
    intro unit front
    constructor
    · rintro ⟨output, ⟨htoken, hfront⟩, rfl⟩
      exact ⟨⟨rfl, htoken⟩, hfront⟩
    · rintro ⟨⟨rfl, htoken⟩, hfront⟩
      exact ⟨_, ⟨htoken, hfront⟩, rfl⟩
  apply ((hexadecimal_takes "unit input digest" _).then fun input =>
    (Takes.unless (fail_refuses _) (houtput _ input)).congr fun unit front =>
      (and_assoc (c := front = [])).symm).congr
  intro unit front
  constructor
  · rintro ⟨input, ⟨htoken, rfl⟩, hmark, rfl, hrest⟩
    rw [← String.toList_inj, String.toList_ofList] at htoken hrest
    obtain ⟨after, hafter⟩ := not_not.mp hmark
    rw [← hafter, drop_left] at hrest
    refine ⟨?_, rfl⟩
    conv_lhs => rw [← take_append_drop (value.take (2 + kHexDigits)).length value]
    rw [← hafter, hrest, htoken, hex16_length, htoken]
  · rintro ⟨rfl, rfl⟩
    have htake : ((hex16 unit.input).toList ++
        (kOutput.toList ++ (hex16 unit.output).toList)).take (2 + kHexDigits) =
        (hex16 unit.input).toList := take_left' (hex16_length unit.input)
    refine ⟨unit.input, ⟨?_, rfl⟩, ?_⟩
    · rw [htake, String.ofList_toList]
    · rw [htake, drop_left]
      refine ⟨not_not.mpr (prefix_append _ _), rfl, ?_⟩
      simp

theorem unitLine_eq (index : Nat) (unit : UnitDigest) :
    unitLine index unit = "unit" ++ " " ++ String.ofList ((unitMark index).toList ++
      ((hex16 unit.input).toList ++ (kOutput.toList ++ (hex16 unit.output).toList))) := by
  have hword : "unit " = "unit" ++ " " := rfl
  apply String.toList_inj.mp
  rw [unitLine, hword, unitMark, kOutput]
  simp

theorem parseUnit_takes (index : Nat) :
    Takes inView (parseUnit index) fun unit front => True ∧ front = [unitLine index unit] := by
  apply ((keyed_takes "unit").then fun value =>
    (Takes.unless (fail_refuses _) (parseDigests_takes index _)).congr fun unit front =>
      (and_assoc (c := front = [])).symm).congr
  intro unit front
  rw [unitLine_eq]
  constructor
  · rintro ⟨value, rfl, hmark, hdigests⟩
    obtain ⟨after, hafter⟩ := not_not.mp hmark
    rw [← hafter, drop_left] at hdigests
    rw [← hdigests, hafter, String.ofList_toList]
    exact ⟨trivial, rfl⟩
  · rintro ⟨-, rfl⟩
    refine ⟨_, rfl, ?_⟩
    rw [String.toList_ofList, drop_left]
    exact ⟨not_not.mpr (prefix_append _ _), rfl⟩

theorem unitLines_cons (index : Nat) (unit : UnitDigest) (rest : List UnitDigest) :
    ((unit :: rest).mapIdx fun place => unitLine (index + place)) =
      unitLine index unit :: rest.mapIdx fun place => unitLine (index + 1 + place) := by
  rw [mapIdx_cons, Nat.add_zero]
  simp only [Nat.add_assoc, Nat.add_comm 1]

theorem parseUnits_takes (index count : Nat) :
    Takes inView (parseUnits index count) fun units front =>
      units.length = count ∧ front = units.mapIdx fun place => unitLine (index + place) := by
  induction count generalizing index with
  | zero =>
    apply (Takes.pure _).congr
    intro units front
    constructor
    · rintro ⟨rfl, rfl⟩
      exact ⟨rfl, rfl⟩
    · rintro ⟨hlength, rfl⟩
      rw [length_eq_zero_iff] at hlength
      subst hlength
      exact ⟨rfl, rfl⟩
  | succ count ih =>
    apply ((parseUnit_takes index).item fun unit =>
      (ih (index + 1)).then fun rest => (Takes.pure (unit :: rest))).congr
    intro units front
    constructor
    · rintro ⟨unit, -, after, ⟨rest, ⟨hlength, rfl⟩, rfl⟩, rfl⟩
      exact ⟨by rw [length_cons, hlength], (unitLines_cons index unit rest).symm⟩
    · rintro ⟨hlength, rfl⟩
      cases units with
      | nil => cases hlength
      | cons unit rest =>
        rw [length_cons, Nat.succ_inj] at hlength
        exact ⟨unit, trivial, _, ⟨rest, ⟨hlength, rfl⟩, rfl⟩, unitLines_cons index unit rest⟩

theorem parseVector_takes :
    Takes inView parseVector fun vector front => vector.Valid ∧ front = vectorLines vector := by
  apply (parseKey_takes.bind fun key => (parseUnits_takes 0 key.units.toNat).bind fun units =>
    (parseHexadecimal_takes "digest").then fun digest => Takes.pure _).congr
  have hdigest : ∀ digest, "digest" ++ " " ++ hex16 digest = "digest " ++ hex16 digest :=
    fun _ => rfl
  intro vector front
  constructor
  · rintro ⟨key, before, after, ⟨hkey, rfl⟩, ⟨units, middle, last, ⟨hunits, rfl⟩,
      ⟨digest, ⟨-, rfl⟩, rfl⟩, rfl⟩, rfl⟩
    refine ⟨⟨hkey, hunits⟩, ?_⟩
    simp only [vectorLines, unitLines, Nat.zero_add, hdigest, append_assoc]
  · rintro ⟨hvalid, rfl⟩
    refine ⟨vector.key, _, _, ⟨hvalid.key, rfl⟩, ⟨vector.units, _, _, ⟨hvalid.units, rfl⟩,
      ⟨vector.digest, ⟨trivial, rfl⟩, rfl⟩, rfl⟩, ?_⟩
    simp only [vectorLines, unitLines, Nat.zero_add, hdigest, append_assoc]

theorem parseEnd_iff (s : ParserState) : (∃ s', parseEnd.run s = .ok ((), s')) ↔ inView s = [] := by
  obtain ⟨hview, hnone⟩ := nextLine_spec s.rest s.number
  have hrun : parseEnd.run s =
      (refuseExtra (nextLine s.rest s.number).1).run (nextLine s.rest s.number).2 := rfl
  rw [hrun]
  cases hread : (nextLine s.rest s.number).1 with
  | none => exact iff_of_true ⟨_, rfl⟩ (hnone hread)
  | some line =>
    apply iff_of_false
    · rintro ⟨s', hok⟩
      cases hok
    · intro hnil
      rw [hread, ← inView, hnil] at hview
      cases hview

theorem parseFile_iff (s : ParserState) (vector : GoldenVector) :
    (∃ s', parseFile.run s = .ok (vector, s')) ↔ Leaves inView parseVector s vector [] := by
  simp only [parseFile, StateT.run_bind, bind_eq_ok, Prod.exists]
  constructor
  · rintro ⟨s', read, mid, hvector, _, last, hend, hread⟩
    cases hread
    exact ⟨mid, hvector, (parseEnd_iff mid).mp ⟨s', hend⟩⟩
  · rintro ⟨mid, hvector, hnil⟩
    obtain ⟨s', hend⟩ := (parseEnd_iff mid).mpr hnil
    exact ⟨s', vector, mid, hvector, (), s', hend, rfl⟩

theorem parseGolden_eq_ok {text : String} {vector : GoldenVector} :
    parseGolden text = .ok vector ↔
      vector.Valid ∧ contentLines text.toList = vectorLines vector := by
  have hstart : inView ⟨text.toList, 0⟩ = contentLines text.toList := rfl
  have hmap : parseGolden text = .ok vector ↔
      ∃ s', parseFile.run ⟨text.toList, 0⟩ = .ok (vector, s') := by
    rw [parseGolden]
    cases hrun : parseFile.run ⟨text.toList, 0⟩ with
    | error e => simp [Except.map]
    | ok result => simp [Except.map, Prod.ext_iff]
  rw [hmap, parseFile_iff, parseVector_takes, hstart]
  constructor
  · rintro ⟨front, ⟨hvalid, rfl⟩, hview⟩
    rw [append_nil] at hview
    exact ⟨hvalid, hview⟩
  · rintro ⟨hvalid, hview⟩
    exact ⟨_, ⟨hvalid, rfl⟩, by rw [hview, append_nil]⟩

end Vector

section Writing

/-- A line without a break in it that is neither empty nor a comment. -/
def OneLine (line : String) : Prop := '\n' ∉ line.toList ∧ isContent line.toList = true

instance (line : String) : Decidable (OneLine line) :=
  inferInstanceAs (Decidable ('\n' ∉ line.toList ∧ isContent line.toList = true))

theorem oneLine_append {word value : String} (hw : OneLine word) (hv : '\n' ∉ value.toList) :
    OneLine (word ++ value) := by
  obtain ⟨hbreak, hcontent⟩ := hw
  rw [OneLine, String.toList_append, mem_append, not_or]
  refine ⟨⟨hbreak, hv⟩, ?_⟩
  rw [isContent] at hcontent ⊢
  cases hword : word.toList with
  | nil =>
    rw [hword] at hcontent
    cases hcontent
  | cons c rest =>
    rw [hword] at hcontent
    exact hcontent

theorem toDigits_no_newline (n : Nat) : '\n' ∉ (toString n).toList := by
  intro hmem
  have htext : (toString n).toList = Nat.toDigits 10 n := Nat.toList_repr
  rw [htext] at hmem
  exact absurd (Nat.isDigit_of_mem_toDigits (by decide) (by decide) hmem) (by decide)

theorem hex16_no_newline (value : UInt64) : '\n' ∉ (hex16 value).toList := by
  have hbreak : ∀ n, n < 16 → hexDigit n ≠ '\n' := by decide
  rw [hex16_toList, mem_append, not_or]
  refine ⟨by decide, ?_⟩
  intro hmem
  obtain ⟨n, hn, hsame⟩ := mem_map.mp hmem
  exact hbreak n (places_lt (by decide) _ _ n (mem_reverse.mp hn)) hsame

theorem isValidName_no_newline {name : String} (hn : isValidName name = true) :
    '\n' ∉ name.toList := by
  intro hmem
  rw [isValidName] at hn
  split at hn
  · cases hn
  · rename_i c cs hname
    rw [Bool.and_eq_true] at hn
    rw [hname] at hmem
    exact absurd (all_eq_true.mp hn.2 '\n' hmem) (by decide)

theorem describe_no_newline (path : IsaPath) : '\n' ∉ path.describe.toList := by
  cases path <;> decide

theorem keyLines_oneLine {key : GoldenKey} (hk : key.Valid) :
    ∀ line ∈ keyLines key, OneLine line := by
  have hname := isValidName_no_newline hk.workload
  simp only [keyLines, forall_mem_cons]
  refine ⟨by decide, oneLine_append (by decide) hname,
    oneLine_append (by decide) (toDigits_no_newline _),
    oneLine_append (by decide) (describe_no_newline _),
    oneLine_append (by decide) (hex16_no_newline _),
    oneLine_append (by decide) (toDigits_no_newline _),
    oneLine_append (by decide) (toDigits_no_newline _),
    oneLine_append (by decide) (toDigits_no_newline _),
    oneLine_append (by decide) (toDigits_no_newline _), nofun⟩

theorem unitLine_oneLine (index : Nat) (unit : UnitDigest) : OneLine (unitLine index unit) := by
  have hunit : OneLine ("unit " ++ toString index) :=
    oneLine_append (by decide) (toDigits_no_newline index)
  have hinput : OneLine ("unit " ++ toString index ++ " input " ++ hex16 unit.input) :=
    oneLine_append (oneLine_append hunit (by decide)) (hex16_no_newline unit.input)
  exact oneLine_append (oneLine_append hinput (by decide)) (hex16_no_newline unit.output)

theorem vectorLines_oneLine {vector : GoldenVector} (hv : vector.Valid) :
    ∀ line ∈ vectorLines vector, OneLine line := by
  intro line hline
  rw [vectorLines, mem_append, mem_append, mem_singleton] at hline
  obtain (hkey | hunit) | rfl := hline
  · exact keyLines_oneLine hv.key line hkey
  · obtain ⟨index, hindex, rfl⟩ := mem_mapIdx.mp hunit
    exact unitLine_oneLine index _
  · exact oneLine_append (by decide) (hex16_no_newline _)

theorem noteLines_comment (note : List Char) :
    ∀ line ∈ noteLines note, '\n' ∉ line.toList ∧ isContent line.toList = false := by
  fun_induction noteLines note with
  | case1 => nofun
  | case2 c rest ih =>
    rw [forall_mem_cons]
    refine ⟨?_, ih⟩
    rw [String.toList_append, mem_append, not_or]
    refine ⟨⟨by decide, ?_⟩, rfl⟩
    rw [String.toList_ofList]
    exact takeLine_no_newline (c :: rest)

/-- A written file has the vector's lines, whatever the note. -/
theorem contentLines_formatGolden {vector : GoldenVector} (hv : vector.Valid) (note : String) :
    contentLines (formatGolden vector note).toList = vectorLines vector := by
  have hheader : ∀ line ∈ kHeader, '\n' ∉ line.toList ∧ isContent line.toList = false := by
    decide +kernel
  have hnote := noteLines_comment note.toList
  have hvector := vectorLines_oneLine hv
  have hbreak : ∀ line ∈ kHeader ++ noteLines note.toList ++ vectorLines vector,
      '\n' ∉ line.toList := by
    intro line hline
    rw [mem_append, mem_append] at hline
    obtain (hline | hline) | hline := hline
    · exact (hheader line hline).1
    · exact (hnote line hline).1
    · exact (hvector line hline).1
  have hcomments : ∀ lines : List String, (∀ line ∈ lines, isContent line.toList = false) →
      (lines.filter fun line => isContent line.toList) = [] := by
    intro lines hlines
    rw [filter_eq_nil_iff]
    intro line hline
    rw [hlines line hline]
    exact Bool.false_ne_true
  rw [formatGolden, contentLines_join _ hbreak, filter_append, filter_append,
    hcomments _ fun line hline => (hheader line hline).2,
    hcomments _ fun line hline => (hnote line hline).2, nil_append, nil_append]
  exact filter_eq_self.mpr fun line hline => (hvector line hline).2

end Writing

/-- A text is read as a vector exactly if its lines, comments apart, are the vector's own. -/
theorem golden_files_are_canonical :
    (∀ vector note, vector.Valid → parseGolden (formatGolden vector note) = .ok vector) ∧
    ∀ text vector, parseGolden text = .ok vector ↔
      vector.Valid ∧
        contentLines text.toList = contentLines (formatGolden vector "").toList := by
  constructor
  · intro vector note hv
    exact parseGolden_eq_ok.mpr ⟨hv, contentLines_formatGolden hv note⟩
  · intro text vector
    rw [parseGolden_eq_ok]
    apply and_congr_right
    intro hv
    rw [contentLines_formatGolden hv ""]

def oneUnitVector : GoldenVector where
  key :=
    { workload := "sort", version := 1, isa := .kScalar, seed := 7, footprintBytes := 4096
      decomposition := 0, resolvedDecomposition := 4, units := 1 }
  units := [⟨0x0123456789abcdef, 0xfedcba9876543210⟩]
  digest := 42

theorem one_unit_vector_is_canonical :
    oneUnitVector.Valid ∧ parseGolden (formatGolden oneUnitVector "one\nloadforge-golden 2") =
      .ok oneUnitVector := by
  have hvalid : oneUnitVector.Valid := ⟨⟨by decide, by decide, by decide, by decide⟩, by decide⟩
  exact ⟨hvalid, golden_files_are_canonical.1 _ _ hvalid⟩

end LoadForge.Verification.Golden
