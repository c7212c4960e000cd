import LoadForge.Worker.Entry

namespace LoadForge.Worker

open LoadForge.Core Framework Primitives Verification Workloads List

section Numbers

theorem numberOf_repr (key : String) (n : Nat) (hn : n < 2 ^ 64) :
    numberOf key n.repr = .ok (UInt64.ofNat n) := by
  simp only [numberOf, splitNumberAndSuffix_repr n hn]

theorem numberOf_word (key : String) (n : UInt64) : numberOf key (toString n) = .ok n := by
  have hread := numberOf_repr key n.toNat n.toNat_lt
  rw [UInt64.ofNat_toNat] at hread
  exact hread

theorem numberAtMost_eq_ok {key text : String} {limit number : UInt64} :
    numberAtMost key text limit = .ok number ↔
      numberOf key text = .ok number ∧ number.toNat ≤ limit.toNat := by
  rw [numberAtMost, bind_eq_ok]
  constructor
  · rintro ⟨n, hread, hle⟩
    split_ifs at hle with hpast
    cases hle
    exact ⟨hread, UInt64.le_iff_toNat_le.mp (UInt64.not_lt.mp hpast)⟩
  · rintro ⟨hread, hle⟩
    refine ⟨number, hread, ?_⟩
    rw [if_neg (UInt64.not_lt.mpr (UInt64.le_iff_toNat_le.mpr hle))]

theorem numberAtMost_word32 (key : String) (n : UInt32) (limit number : UInt64) :
    numberAtMost key (toString n) limit = .ok number ↔
      number = n.toUInt64 ∧ n.toNat ≤ limit.toNat := by
  have hread : numberOf key (toString n) = .ok n.toUInt64 := numberOf_word key n.toUInt64
  rw [numberAtMost_eq_ok, hread]
  constructor
  · rintro ⟨hsame, hle⟩
    cases hsame
    exact ⟨rfl, hle⟩
  · rintro ⟨rfl, hle⟩
    exact ⟨rfl, hle⟩

theorem numberOf32_word (key : String) (n : UInt32) : numberOf32 key (toString n) = .ok n := by
  have hmax : n.toNat ≤ kUint32Max.toNat := by
    have hlt := n.toNat_lt
    have hvalue : kUint32Max.toNat = 2 ^ 32 - 1 := rfl
    omega
  rw [numberOf32, (numberAtMost_word32 key n kUint32Max n.toUInt64).mpr ⟨rfl, hmax⟩]
  simp [Except.map]

theorem atLeastOne_eq_ok {key : String} {number : UInt64} :
    atLeastOne key number = .ok () ↔ 0 < number.toNat := by
  unfold atLeastOne
  split_ifs with hzero
  · simp [hzero]
  · have hpos : number.toNat ≠ 0 := by
      intro hn
      exact hzero (UInt64.toNat_inj.mp hn)
    simp only [true_iff]
    omega

theorem comma_not_digit (n : Nat) : ',' ∉ n.repr.toList := by
  intro hmem
  rw [Nat.toList_repr] at hmem
  have hdigit := Nat.isDigit_of_mem_toDigits (by decide) (by decide) hmem
  exact absurd hdigit (by decide)

theorem cpusOf_intercalate (cpus : List UInt32) (hc : cpus ≠ []) :
    cpusOf (",".intercalate (cpus.map toString)) = .ok cpus := by
  have hpieces : (",".intercalate (cpus.map toString)).toList.splitOn ',' =
      cpus.map fun cpu => (toString cpu).toList := by
    rw [String.toList_intercalate, map_map]
    apply splitOn_intercalate
    · intro piece hpiece
      obtain ⟨cpu, -, rfl⟩ := mem_map.mp hpiece
      exact comma_not_digit cpu.toNat
    · simpa using hc
  rw [cpusOf, hpieces, mapM_eq_ok, forall₂_map_left_iff]
  refine forall₂_same.mpr ?_
  intro cpu _
  rw [String.ofList_toList]
  exact numberOf32_word kCpus cpu

end Numbers

section Collected

theorem find_of_mem (values : Values) (key text : String) (hn : (values.map Prod.fst).Nodup)
    (hm : (key, text) ∈ values) : values.find key = some text := by
  induction values with
  | nil => cases hm
  | cons each values ih =>
    rw [map_cons, nodup_cons] at hn
    rw [mem_cons] at hm
    rw [Values.find, lookup_cons]
    obtain rfl | hrest := hm
    · simp
    · have hother : key ≠ each.1 := by
        rintro rfl
        exact hn.1 (mem_map.mpr ⟨_, hrest, rfl⟩)
      simp only [beq_false_of_ne hother]
      exact ih hn.2 hrest

theorem find_of_not_mem (values : Values) (key : String) (hk : key ∉ values.map Prod.fst) :
    values.find key = none := by
  apply lookup_eq_none_iff.mpr
  intro each heach
  have hother : key ≠ each.1 := by
    rintro rfl
    exact hk (mem_map_of_mem heach)
  exact bne_iff_ne.mpr hother

theorem contains_iff_mem (values : Values) (key : String) :
    values.contains key = true ↔ key ∈ values.map Prod.fst := by
  constructor
  · intro hcontains
    by_contra hk
    rw [Values.contains, find_of_not_mem values key hk] at hcontains
    cases hcontains
  · intro hmem
    obtain ⟨each, heach, rfl⟩ := mem_map.mp hmem
    rw [Values.contains, Option.isSome_iff_ne_none]
    intro hnone
    have hother := lookup_eq_none_iff.mp hnone each heach
    simp at hother

theorem collectPairs_flatMap (known : List String) (values pairs : Values)
    (hn : ((values ++ pairs).map Prod.fst).Nodup) (hk : ∀ each ∈ pairs, each.1 ∈ known) :
    collectPairs known values (pairs.flatMap fun each => [each.1, each.2]) =
      .ok (values ++ pairs) := by
  induction pairs generalizing values with
  | nil => simp [collectPairs]
  | cons each pairs ih =>
    have hknown : each.1 ∈ known := hk each (by simp)
    have hnew : ¬ values.contains each.1 = true := by
      rw [contains_iff_mem]
      intro hmem
      rw [map_append, map_cons] at hn
      exact (nodup_append.mp hn).2.2 _ hmem _ (by simp) rfl
    have hrest := ih (values ++ [each]) (by simpa using hn)
      (fun other hother => hk other (by simp [hother]))
    rw [flatMap_cons, cons_append, cons_append, nil_append, collectPairs,
      if_neg (not_not.mpr hknown), if_neg hnew]
    rw [append_assoc, singleton_append] at hrest
    exact hrest

theorem collect_flatMap {required optional : List String} {pairs : Values}
    (hn : (pairs.map Prod.fst).Nodup) (hk : ∀ each ∈ pairs, each.1 ∈ required ++ optional)
    (hr : ∀ key ∈ required, key ∈ pairs.map Prod.fst) :
    collect (pairs.flatMap fun each => [each.1, each.2]) required optional = .ok pairs := by
  have hpairs := collectPairs_flatMap (required ++ optional) [] pairs hn hk
  have hrequired : required.find? (fun key => !pairs.contains key) = none := by
    rw [find?_eq_none]
    intro key hkey
    simp [(contains_iff_mem _ _).mpr (hr key hkey)]
  rw [collect, bind_eq_ok]
  refine ⟨pairs, hpairs, ?_⟩
  rw [hrequired]

theorem find_append (values rest : Values) (key : String) :
    Values.find (values ++ rest) key = (values.find key).or (rest.find key) :=
  lookup_append

theorem text_of_find {values : Values} {key text : String} (h : values.find key = some text) :
    values.text key = text := by
  rw [Values.text, h, Option.getD_some]

end Collected

section Written

theorem cpuArgument_keys (cpus : List UInt32) :
    ((cpuArgument cpus).map Prod.fst).Sublist [kCpus] := by
  unfold cpuArgument
  split_ifs <;> simp

theorem placeArgument_keys (key : String) (place : Option UInt32) :
    ((placeArgument key place).map Prod.fst).Sublist [key] := by
  cases place <;> simp [placeArgument]

theorem find_placeArgument (key other : String) (place : Option UInt32) :
    (placeArgument other place).find key = if key = other then place.map toString else none := by
  cases place with
  | none => simp [placeArgument, Values.find]
  | some id =>
    by_cases hkey : key = other
    · simp [placeArgument, Values.find, hkey]
    · simp [placeArgument, Values.find, hkey, lookup_cons, beq_false_of_ne hkey]

def unitKeys (withDuty : Bool) : List String :=
  [kWorkload, kSeed, kFootprintBytes, kThreads, kDecomposition, kIsa, kLock, kLineBytes] ++
    if withDuty then [kOraclePeriod, kIntegrityPeriod] else []

theorem unitArguments_keys (work : WorkloadArgs) (withDuty : Bool) :
    (unitArguments work withDuty).map Prod.fst = unitKeys withDuty := by
  cases withDuty <;> rfl

theorem addWorkload_keys (work : WorkloadArgs) (withDuty : Bool) :
    ((addWorkload work withDuty).map Prod.fst).Sublist
      (unitKeys withDuty ++ [kPhysicalPackage] ++ [kPhysicalCore] ++ [kNumaNode]) := by
  rw [addWorkload, map_append, map_append, map_append, unitArguments_keys]
  exact (((Sublist.refl _).append (placeArgument_keys _ _)).append
    (placeArgument_keys _ _)).append (placeArgument_keys _ _)

/-- The values hold a unit of work as it is written. -/
structure Carries (values : Values) (work : WorkloadArgs) (withDuty : Bool) : Prop where
  fixed : ∀ key text, (key, text) ∈ unitArguments work withDuty → values.text key = text
  package : values.find kPhysicalPackage = work.physicalPackage.map toString
  core : values.find kPhysicalCore = work.physicalCore.map toString
  node : values.find kNumaNode = work.numaNode.map toString

theorem carries_of_append (before after : Values) (work : WorkloadArgs) (withDuty : Bool)
    (hn : ((before ++ addWorkload work withDuty ++ after).map Prod.fst).Nodup)
    (hother : ∀ key ∈ kWorkloadOptional, key ∉ (before ++ after).map Prod.fst) :
    Carries (before ++ addWorkload work withDuty ++ after) work withDuty := by
  have hplace : ∀ key ∈ kWorkloadOptional,
      Values.find (before ++ addWorkload work withDuty ++ after) key =
        ((if key = kPhysicalPackage then work.physicalPackage.map toString else none).or
          (if key = kPhysicalCore then work.physicalCore.map toString else none)).or
          (if key = kNumaNode then work.numaNode.map toString else none) := by
    intro key hkey
    have hfree := hother key hkey
    rw [map_append, mem_append, not_or] at hfree
    have hunit : (unitArguments work withDuty).find key = none := by
      apply find_of_not_mem
      rw [unitArguments_keys]
      have hapart : ∀ key ∈ kWorkloadOptional, key ∉ unitKeys withDuty := by
        cases withDuty <;> decide
      exact hapart key hkey
    rw [find_append, find_append, find_of_not_mem before key hfree.1,
      find_of_not_mem after key hfree.2, addWorkload, find_append, find_append, find_append, hunit,
      find_placeArgument, find_placeArgument, find_placeArgument]
    simp
  constructor
  case fixed =>
    intro key text hmem
    apply text_of_find
    apply find_of_mem _ _ _ hn
    rw [addWorkload]
    simp only [mem_append]
    exact .inl (.inr (.inl (.inl (.inl hmem))))
  case package =>
    rw [hplace _ (by decide), if_pos rfl, if_neg (by decide), if_neg (by decide)]
    simp
  case core =>
    rw [hplace _ (by decide), if_neg (by decide), if_pos rfl, if_neg (by decide)]
    simp
  case node =>
    rw [hplace _ (by decide), if_neg (by decide), if_neg (by decide), if_pos rfl]
    simp

end Written

section Unit

variable {values : Values} {work : WorkloadArgs} {withDuty : Bool}

def LineAccepted (lineBytes : UInt32) : Prop :=
  8 ≤ lineBytes.toNat ∧ lineBytes.toNat ≤ 4096 ∧ lineBytes.toNat.isPowerOfTwo

/-- Work whose name, footprint, threads and line size a worker takes. -/
def Bounded (work : WorkloadArgs) : Prop :=
  isValidName work.workload ∧ 0 < work.footprintBytes.toNat ∧
    (0 < work.threads.toNat ∧ work.threads.toNat ≤ 1024) ∧ LineAccepted work.lineBytes

theorem nameOf_eq_ok {name : String} :
    nameOf values = .ok name ↔ name = values.text kWorkload ∧ isValidName name := by
  unfold nameOf
  dsimp only
  split_ifs with hvalid
  · constructor
    · intro h
      cases h
      exact ⟨rfl, hvalid⟩
    · rintro ⟨rfl, -⟩
      rfl
  · constructor
    · intro h
      cases h
    · rintro ⟨rfl, h⟩
      exact absurd h hvalid

theorem footprintBytesOf_eq_ok {footprint : UInt64} :
    footprintBytesOf values = .ok footprint ↔
      numberOf kFootprintBytes (values.text kFootprintBytes) = .ok footprint ∧
        0 < footprint.toNat := by
  simp only [footprintBytesOf, bind_eq_ok, Except.ok.injEq]
  constructor
  · rintro ⟨_, hread, _, hpos, rfl⟩
    exact ⟨hread, atLeastOne_eq_ok.mp hpos⟩
  · rintro ⟨hread, hpos⟩
    exact ⟨_, hread, (), atLeastOne_eq_ok.mpr hpos, rfl⟩

theorem threadsOf_eq_ok {threads : UInt32} :
    threadsOf values = .ok threads ↔
      numberOf kThreads (values.text kThreads) = .ok threads.toUInt64 ∧ 0 < threads.toNat ∧
        threads.toNat ≤ 1024 := by
  have hmax : kMaxWorkers.toNat = 1024 := rfl
  simp only [threadsOf, bind_eq_ok, numberAtMost_eq_ok, Except.ok.injEq]
  constructor
  · rintro ⟨n, ⟨hread, hle⟩, _, hpos, rfl⟩
    have hsmall : n.toUInt32.toUInt64 = n := by
      apply UInt64.toNat_inj.mp
      rw [UInt32.toNat_toUInt64, UInt64.toNat_toUInt32]
      omega
    have hn := atLeastOne_eq_ok.mp hpos
    rw [hsmall, UInt64.toNat_toUInt32]
    exact ⟨hread, by omega, by omega⟩
  · rintro ⟨hread, hpos, hle⟩
    refine ⟨_, ⟨hread, ?_⟩, (), atLeastOne_eq_ok.mpr ?_, UInt32.toUInt32_toUInt64 _⟩
    · rw [UInt32.toNat_toUInt64]
      omega
    · rwa [UInt32.toNat_toUInt64]

theorem lineBytesOf_eq_ok {lineBytes : UInt32} :
    lineBytesOf values = .ok lineBytes ↔
      numberOf kLineBytes (values.text kLineBytes) = .ok lineBytes.toUInt64 ∧
        LineAccepted lineBytes := by
  have hmin : kMinLineBytes.toNat = 8 := rfl
  have hmax : kMaxLineBytes.toNat = 4096 := rfl
  simp only [lineBytesOf, bind_eq_ok, numberAtMost_eq_ok]
  constructor
  · rintro ⟨n, ⟨hread, hle⟩, hline⟩
    split_ifs at hline with hbad
    cases hline
    have hnat : n.toUInt32.toNat = n.toNat := by
      rw [UInt64.toNat_toUInt32]
      omega
    have hsmall : n.toUInt32.toUInt64 = n := by
      apply UInt64.toNat_inj.mp
      rw [UInt32.toNat_toUInt64, hnat]
    rw [not_or, UInt64.lt_iff_toNat_lt] at hbad
    rw [hsmall, LineAccepted, hnat]
    refine ⟨hread, by omega, by omega, (hasSingleBit_iff n.toNat).mp ?_⟩
    simpa using hbad.2
  · rintro ⟨hread, hlow, hhigh, hpower⟩
    have hnat : lineBytes.toUInt64.toNat = lineBytes.toNat := UInt32.toNat_toUInt64 _
    refine ⟨_, ⟨hread, by omega⟩, ?_⟩
    rw [if_neg, UInt32.toUInt32_toUInt64]
    rw [not_or, UInt64.lt_iff_toNat_lt, hnat]
    refine ⟨by omega, ?_⟩
    simp [(hasSingleBit_iff lineBytes.toNat).mpr hpower]

theorem placeAt_of_find (values : Values) (key : String) (place : Option UInt32)
    (hf : values.find key = place.map toString) : placeAt values key = .ok place := by
  rw [placeAt, hf]
  cases place with
  | none => rfl
  | some id => simp [numberOf32_word, Except.map]

theorem workloadOf_bounded {read : WorkloadArgs} (h : workloadOf values withDuty = .ok read) :
    Bounded read ∧ (withDuty = false → read.duty = {}) ∧
      (values.find kPhysicalPackage = none → read.physicalPackage = none) ∧
      (values.find kPhysicalCore = none → read.physicalCore = none) ∧
      (values.find kNumaNode = none → read.numaNode = none) := by
  have hplace : ∀ (key : String) (place : Option UInt32), placeAt values key = .ok place →
      values.find key = none → place = none := by
    intro key place hread hnone
    rw [placeAt, hnone] at hread
    cases hread
    rfl
  simp only [workloadOf, bind_eq_ok] at h
  obtain ⟨name, hname, seed, -, footprint, hfootprint, threads, hthreads, decomposition, -, isa, -,
    lock, -, line, hline, duty, hduty, package, hpackage, core, hcore, node, hnode, hread⟩ := h
  cases hread
  refine ⟨⟨(nameOf_eq_ok.mp hname).2, (footprintBytesOf_eq_ok.mp hfootprint).2,
    (threadsOf_eq_ok.mp hthreads).2, (lineBytesOf_eq_ok.mp hline).2⟩, ?_, hplace _ _ hpackage,
    hplace _ _ hcore, hplace _ _ hnode⟩
  rintro rfl
  cases hduty
  rfl

theorem workloadOf_carries (h : Carries values work withDuty)
    (hduty : withDuty = false → work.duty = {}) (read : WorkloadArgs) :
    workloadOf values withDuty = .ok read ↔ read = work ∧ Bounded work := by
  have htext : ∀ key text, (key, text) ∈ unitArguments work withDuty → values.text key = text :=
    h.fixed
  have hname := htext kWorkload work.workload (by simp [unitArguments])
  have hseed := htext kSeed (toString work.seed) (by simp [unitArguments])
  have hfootprint := htext kFootprintBytes (toString work.footprintBytes) (by simp [unitArguments])
  have hthreads := htext kThreads (toString work.threads) (by simp [unitArguments])
  have hdecomposition := htext kDecomposition (toString work.decomposition)
    (by simp [unitArguments])
  have hisa := htext kIsa work.isa.describe (by simp [unitArguments])
  have hlock := htext kLock work.lock.describe (by simp [unitArguments])
  have hline := htext kLineBytes (toString work.lineBytes) (by simp [unitArguments])
  have hisaOf : isaOf values = .ok work.isa := by
    rw [isaOf, hisa, parseIsaPath_describe]
  have hlockOf : lockOf values = .ok work.lock := by
    have hparse : parseLockPolicy work.lock.describe = some work.lock := by
      cases work.lock <;> decide
    rw [lockOf, hlock, hparse]
  have hdutyOf : dutyOf values withDuty = .ok work.duty := by
    cases withDuty with
    | false => rw [hduty rfl]; rfl
    | true =>
      have horacle := htext kOraclePeriod (toString work.duty.oraclePeriod)
        (by simp [unitArguments])
      have hintegrity := htext kIntegrityPeriod (toString work.duty.integrityPeriod)
        (by simp [unitArguments])
      rw [dutyOf, if_pos rfl, horacle, hintegrity, numberOf32_word, numberOf32_word]
      rfl
  have hword32 : ∀ (key : String) (n m : UInt32),
      numberOf key (toString n) = .ok m.toUInt64 ↔ m = n := by
    intro key n m
    have hread : numberOf key (toString n) = .ok n.toUInt64 := numberOf_word key n.toUInt64
    rw [hread, Except.ok.injEq, UInt32.toUInt64_inj]
    exact eq_comm
  simp only [workloadOf, bind_eq_ok, nameOf_eq_ok, hname, hseed, numberOf_word, Except.ok.injEq,
    footprintBytesOf_eq_ok, hfootprint, threadsOf_eq_ok, hthreads, hword32, hdecomposition,
    numberOf32_word, hisaOf, hlockOf, lineBytesOf_eq_ok, hline, hdutyOf,
    placeAt_of_find _ _ _ h.package, placeAt_of_find _ _ _ h.core, placeAt_of_find _ _ _ h.node]
  constructor
  · rintro ⟨_, ⟨rfl, hname⟩, _, rfl, _, ⟨rfl, hfootprint⟩, _, ⟨rfl, hthreads⟩, _, rfl, _, rfl,
      _, rfl, _, ⟨rfl, hline⟩, _, rfl, _, rfl, _, rfl, _, rfl, rfl⟩
    exact ⟨rfl, hname, hfootprint, hthreads, hline⟩
  · rintro ⟨rfl, hname, hfootprint, hthreads, hline⟩
    exact ⟨_, ⟨rfl, hname⟩, _, rfl, _, ⟨rfl, hfootprint⟩, _, ⟨rfl, hthreads⟩, _, rfl, _, rfl,
      _, rfl, _, ⟨rfl, hline⟩, _, rfl, _, rfl, _, rfl, _, rfl, rfl⟩

end Unit

section Worker

variable {args : WorkerArgs} {work : WorkloadArgs}

def workArguments (args : WorkerArgs) : Values :=
  match args.workload with
  | some work => addWorkload work true
  | none => []

theorem arguments_eq (args : WorkerArgs) :
    arguments args = endpointArguments args ++ cpuArgument args.cpus ++ workArguments args := rfl

theorem workArguments_some (hw : args.workload = some work) :
    workArguments args = addWorkload work true := by
  rw [workArguments, hw]

theorem workArguments_none (hw : args.workload = none) : workArguments args = [] := by
  rw [workArguments, hw]

/-- The keys a worker is started with, in the order they are written. -/
def writtenKeys : List String :=
  kRequired ++ [kCpus] ++ (unitKeys true ++ [kPhysicalPackage] ++ [kPhysicalCore] ++ [kNumaNode])

theorem arguments_keys (args : WorkerArgs) :
    ((arguments args).map Prod.fst).Sublist writtenKeys := by
  rw [arguments_eq, map_append, map_append]
  apply Sublist.append
  · exact (Sublist.refl _).append (cpuArgument_keys args.cpus)
  · cases hw : args.workload with
    | none =>
      rw [workArguments_none hw]
      exact nil_sublist _
    | some work =>
      rw [workArguments_some hw]
      exact addWorkload_keys work true

theorem arguments_nodup (args : WorkerArgs) : ((arguments args).map Prod.fst).Nodup := by
  have hwritten : writtenKeys.Nodup := by decide
  exact hwritten.sublist (arguments_keys args)

theorem collect_arguments (args : WorkerArgs) :
    collect ((arguments args).flatMap fun each => [each.1, each.2]) kRequired kWorkerOptional =
      .ok (arguments args) := by
  apply collect_flatMap (arguments_nodup args)
  · intro each heach
    have hknown : ∀ key ∈ writtenKeys, key ∈ kRequired ++ kWorkerOptional := by decide
    exact hknown _ ((arguments_keys args).subset (mem_map_of_mem heach))
  · intro key hkey
    rw [arguments_eq, map_append, map_append]
    exact mem_append_left _ (mem_append_left _ hkey)

theorem text_arguments (args : WorkerArgs) (key text : String)
    (hm : (key, text) ∈ endpointArguments args) : (arguments args).text key = text := by
  apply text_of_find
  apply find_of_mem _ _ _ (arguments_nodup args)
  rw [arguments_eq]
  exact mem_append_left _ (by simp [hm])

theorem work_keys_apart {key : String}
    (hk : key ∈ kWorkload :: (kWorkloadRequired ++ kWorkloadOptional)) :
    key ∉ (endpointArguments args ++ cpuArgument args.cpus).map Prod.fst := by
  have hapart : ∀ key ∈ kWorkload :: (kWorkloadRequired ++ kWorkloadOptional),
      key ∉ kRequired ++ [kCpus] := by decide
  intro hmem
  apply hapart key hk
  rw [map_append] at hmem
  exact ((Sublist.refl kRequired).append (cpuArgument_keys args.cpus)).subset hmem

theorem carries_arguments (hw : args.workload = some work) : Carries (arguments args) work true := by
  have heq : arguments args =
      endpointArguments args ++ cpuArgument args.cpus ++ addWorkload work true ++ [] := by
    rw [arguments_eq, workArguments_some hw, append_nil]
  rw [heq]
  apply carries_of_append
  · rw [← heq]
    exact arguments_nodup args
  · intro key hkey
    rw [append_nil]
    exact work_keys_apart (mem_cons_of_mem _ (by simp [hkey]))

theorem parseCpus_arguments (args : WorkerArgs) : parseCpus (arguments args) = .ok args.cpus := by
  have hfind : (arguments args).find kCpus =
      if args.cpus = [] then none else some (",".intercalate (args.cpus.map toString)) := by
    have hwork : (workArguments args).find kCpus = none := by
      cases hw : args.workload with
      | none => rw [workArguments_none hw]; rfl
      | some work =>
        rw [workArguments_some hw]
        apply find_of_not_mem
        have hapart : kCpus ∉
            unitKeys true ++ [kPhysicalPackage] ++ [kPhysicalCore] ++ [kNumaNode] := by decide
        exact fun hmem => hapart ((addWorkload_keys work true).subset hmem)
    have hendpoints : (endpointArguments args).find kCpus = none :=
      find_of_not_mem _ _ (show kCpus ∉ kRequired by decide)
    rw [arguments_eq, find_append, find_append, hwork, hendpoints]
    unfold cpuArgument
    split_ifs
    · rfl
    · simp [Values.find]
  rw [parseCpus, hfind]
  by_cases hcpus : args.cpus = []
  · rw [if_pos hcpus, hcpus]
  · rw [if_neg hcpus]
    exact cpusOf_intercalate args.cpus hcpus

theorem parseWork_some (hw : args.workload = some work) :
    parseWork (arguments args) = (workloadOf (arguments args) true).map some := by
  have hnamed : ∀ key ∈ kWorkload :: kWorkloadRequired, (arguments args).contains key = true := by
    intro key hkey
    have hmem : ∀ key ∈ kWorkload :: kWorkloadRequired, key ∈ unitKeys true := by decide
    rw [contains_iff_mem, arguments_eq, workArguments_some hw, addWorkload]
    simp only [map_append, unitArguments_keys]
    exact mem_append_right _
      (mem_append_left _ (mem_append_left _ (mem_append_left _ (hmem key hkey))))
  have hfind : kWorkloadRequired.find? (fun key => !(arguments args).contains key) = none := by
    rw [find?_eq_none]
    intro key hkey
    simp [hnamed key (by simp [hkey])]
  rw [parseWork, if_pos (hnamed kWorkload (by simp)), hfind]

theorem parseWork_none (hw : args.workload = none) : parseWork (arguments args) = .ok none := by
  have habsent : ∀ key ∈ kWorkload :: (kWorkloadRequired ++ kWorkloadOptional),
      ¬ (arguments args).contains key = true := by
    intro key hkey
    rw [contains_iff_mem, arguments_eq, workArguments_none hw, append_nil]
    exact work_keys_apart hkey
  have hfind : (kWorkloadRequired ++ kWorkloadOptional).find? (arguments args).contains = none := by
    rw [find?_eq_none]
    intro key hkey
    exact habsent key (by simp [hkey])
  rw [parseWork, if_neg (habsent kWorkload (by simp)), hfind]

/-- A worker starts with the work and the CPUs it was given exactly when the work is within
bounds. -/
theorem parseArgs_argvFor (args : WorkerArgs) (work : WorkloadArgs) (executable : String)
    (hw : args.workload = some work) (endpoints : Endpoints)
    (he : parseEndpoints (arguments args) = .ok endpoints) (pacing : Pacing)
    (hp : pacingOf (arguments args) = .ok pacing) :
    (∃ parsed, parseArgs ((argvFor executable args).drop 2) = .ok parsed ∧
      parsed.workload = args.workload ∧ parsed.cpus = args.cpus) ↔
      isValidName work.workload ∧ 0 < work.footprintBytes.toNat ∧
        (0 < work.threads.toNat ∧ work.threads.toNat ≤ 1024) ∧ LineAccepted work.lineBytes := by
  have hargv : (argvFor executable args).drop 2 =
      (arguments args).flatMap fun each => [each.1, each.2] := rfl
  have hcarries := workloadOf_carries (carries_arguments hw) nofun
  rw [hargv]
  simp only [parseArgs, bind_eq_ok]
  constructor
  · rintro ⟨parsed, ⟨values, hvalues, _, -, _, -, _, -, read, hread, -⟩, -⟩
    rw [collect_arguments] at hvalues
    cases hvalues
    rw [parseWork_some hw] at hread
    cases hwork : workloadOf (arguments args) true with
    | error e =>
      rw [hwork] at hread
      cases hread
    | ok taken => exact ((hcarries taken).mp hwork).2
  · intro haccepted
    have hread : parseWork (arguments args) = .ok (some work) := by
      rw [parseWork_some hw, (hcarries work).mpr ⟨rfl, haccepted⟩]
      rfl
    exact ⟨_, ⟨_, collect_arguments args, _, he, _, hp, _, parseCpus_arguments args, _, hread, rfl⟩,
      hw.symm, rfl⟩

end Worker

end LoadForge.Worker
