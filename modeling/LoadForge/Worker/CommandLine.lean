import LoadForge.Worker.EntryRoundTrip

namespace LoadForge.Worker

open LoadForge.Core Framework Primitives Verification Workloads List

section Readings

variable {values : Values} {key : String}

/-- A number of the given least value that an `int` holds. -/
def HeldByInt (least : Nat) (number : Int) : Prop :=
  ∃ n : UInt64, number = n.toNat ∧ least ≤ n.toNat ∧ n.toNat ≤ kIntMax.toNat

/-- A time of whole milliseconds, at least one and no more than nanoseconds can count. -/
def WholeMilliseconds (ns : Int) : Prop :=
  ∃ ms : UInt64, ns = ms.toNat * kNanosecondsPerMillisecond ∧ 0 < ms.toNat ∧
    ms.toNat ≤ kMaxMilliseconds.toNat

theorem toString_toNat (n : UInt64) : toString (n.toNat : Int) = toString n := rfl

theorem numberAtMost_word (key : String) (n limit : UInt64) (hn : n.toNat ≤ limit.toNat) :
    numberAtMost key (toString n) limit = .ok n :=
  numberAtMost_eq_ok.mpr ⟨numberOf_word key n, hn⟩

theorem descriptorOf_held {fd : Int} (h : descriptorOf values key = .ok fd) : HeldByInt 0 fd := by
  rw [descriptorOf] at h
  cases hread : numberAtMost key (values.text key) kIntMax with
  | error e =>
    rw [hread] at h
    cases h
  | ok n =>
    rw [hread] at h
    cases h
    exact ⟨n, rfl, Nat.zero_le _, (numberAtMost_eq_ok.mp hread).2⟩

theorem descriptorOf_toString {fd : Int} (h : HeldByInt 0 fd)
    (ht : values.text key = toString fd) : descriptorOf values key = .ok fd := by
  obtain ⟨n, rfl, -, hn⟩ := h
  rw [descriptorOf, ht, toString_toNat, numberAtMost_word key n kIntMax hn]
  rfl

theorem timeOf_whole {ns : Int} (h : timeOf values key = .ok ns) : WholeMilliseconds ns := by
  simp only [timeOf, bind_eq_ok] at h
  obtain ⟨ms, hread, _, hpos, hns⟩ := h
  cases hns
  exact ⟨ms, rfl, atLeastOne_eq_ok.mp hpos, (numberAtMost_eq_ok.mp hread).2⟩

theorem inMilliseconds_whole (ms : UInt64) :
    inMilliseconds (ms.toNat * kNanosecondsPerMillisecond) = toString ms := by
  have hwhole : ((ms.toNat : Int) * kNanosecondsPerMillisecond).tdiv kNanosecondsPerMillisecond =
      ms.toNat := Int.mul_tdiv_cancel _ (by decide)
  rw [inMilliseconds, hwhole, toString_toNat]

theorem timeOf_inMilliseconds {ns : Int} (h : WholeMilliseconds ns)
    (ht : values.text key = inMilliseconds ns) : timeOf values key = .ok ns := by
  obtain ⟨ms, rfl, hpos, hmax⟩ := h
  rw [inMilliseconds_whole] at ht
  simp only [timeOf, bind_eq_ok, ht]
  exact ⟨ms, numberAtMost_word key ms _ hmax, (), atLeastOne_eq_ok.mpr hpos, rfl⟩

end Readings

section Worker

structure WorkerArgs.Accepted (args : WorkerArgs) : Prop where
  workers : 0 < args.workers.toNat ∧ args.workers.toNat ≤ kMaxWorkers.toNat
  slot : args.slot.toNat ≤ (args.workers - 1).toNat
  heartbeatFd : HeldByInt 0 args.heartbeatFd
  recordFd : HeldByInt 0 args.recordFd
  controlFd : HeldByInt 0 args.controlFd
  supervisorPid : HeldByInt 1 args.supervisorPid
  durationNs : WholeMilliseconds args.pacing.durationNs
  intervalNs : WholeMilliseconds args.pacing.intervalNs
  staleAfterNs : WholeMilliseconds args.pacing.staleAfterNs
  stale : ¬ args.pacing.staleAfterNs < args.pacing.intervalNs
  work : ∀ work, args.workload = some work → Bounded work

theorem parseWork_bounded {values : Values} {read : Option WorkloadArgs}
    (h : parseWork values = .ok read) (work : WorkloadArgs) (hw : read = some work) :
    Bounded work := by
  subst hw
  unfold parseWork at h
  split_ifs at h with hnamed
  · split at h
    · cases h
    · cases hwork : workloadOf values true with
      | error e =>
        rw [hwork] at h
        cases h
      | ok taken =>
        rw [hwork] at h
        cases h
        exact (workloadOf_bounded hwork).1
  · split at h
    · cases h
    · cases h

theorem parseArgs_accepted {list : List String} {args : WorkerArgs}
    (h : parseArgs list = .ok args) : args.Accepted := by
  simp only [parseArgs, parseEndpoints, pacingOf, bind_eq_ok] at h
  obtain ⟨values, -, endpoints, ⟨workers, hworkers, _, hsome, slot, hslot, heartbeat, hheartbeat,
    record, hrecord, control, hcontrol, pid, hpid, _, hreal, hendpoints⟩, pacing, ⟨duration,
    hduration, interval, hinterval, stale, hstale, hpacing⟩, cpus, -, work, hwork, hargs⟩ := h
  cases hendpoints
  split_ifs at hpacing with horder
  cases hpacing
  cases hargs
  exact {
    workers := ⟨atLeastOne_eq_ok.mp hsome, (numberAtMost_eq_ok.mp hworkers).2⟩
    slot := (numberAtMost_eq_ok.mp hslot).2
    heartbeatFd := descriptorOf_held hheartbeat
    recordFd := descriptorOf_held hrecord
    controlFd := descriptorOf_held hcontrol
    supervisorPid := ⟨pid, rfl, atLeastOne_eq_ok.mp hreal, (numberAtMost_eq_ok.mp hpid).2⟩
    durationNs := timeOf_whole hduration
    intervalNs := timeOf_whole hinterval
    staleAfterNs := timeOf_whole hstale
    stale := horder
    work := parseWork_bounded hwork }

variable {args : WorkerArgs}

theorem parseEndpoints_arguments (h : args.Accepted) :
    parseEndpoints (arguments args) = .ok
      { workers := args.workers, slot := args.slot, heartbeatFd := args.heartbeatFd
        recordFd := args.recordFd, controlFd := args.controlFd
        supervisorPid := args.supervisorPid } := by
  have hslot := text_arguments args kSlot _ (mem_of_getElem? (i := 0) rfl)
  have hworkers := text_arguments args kWorkers _ (mem_of_getElem? (i := 1) rfl)
  have hheartbeat := text_arguments args kHeartbeatFd _ (mem_of_getElem? (i := 2) rfl)
  have hrecord := text_arguments args kRecordFd _ (mem_of_getElem? (i := 3) rfl)
  have hcontrol := text_arguments args kControlFd _ (mem_of_getElem? (i := 4) rfl)
  have hpid := text_arguments args kSupervisorPid _ (mem_of_getElem? (i := 5) rfl)
  obtain ⟨pid, hpidNat, hpos, hmax⟩ := h.supervisorPid
  rw [hpidNat, toString_toNat] at hpid
  simp only [parseEndpoints, bind_eq_ok, hslot, hworkers, hpid, hpidNat]
  exact ⟨_, numberAtMost_word _ _ _ h.workers.2, (), atLeastOne_eq_ok.mpr h.workers.1,
    _, numberAtMost_word _ _ _ h.slot, _, descriptorOf_toString h.heartbeatFd hheartbeat,
    _, descriptorOf_toString h.recordFd hrecord, _, descriptorOf_toString h.controlFd hcontrol,
    _, numberAtMost_word _ _ _ hmax, (), atLeastOne_eq_ok.mpr hpos, rfl⟩

theorem pacingOf_arguments (h : args.Accepted) : pacingOf (arguments args) = .ok args.pacing := by
  have hduration := text_arguments args kDurationMs _ (mem_of_getElem? (i := 6) rfl)
  have hinterval := text_arguments args kIntervalMs _ (mem_of_getElem? (i := 7) rfl)
  have hstale := text_arguments args kStaleAfterMs _ (mem_of_getElem? (i := 8) rfl)
  simp only [pacingOf, bind_eq_ok]
  refine ⟨_, timeOf_inMilliseconds h.durationNs hduration, _,
    timeOf_inMilliseconds h.intervalNs hinterval, _,
    timeOf_inMilliseconds h.staleAfterNs hstale, ?_⟩
  rw [if_neg h.stale]

theorem parseWork_arguments (h : args.Accepted) :
    parseWork (arguments args) = .ok args.workload := by
  cases hw : args.workload with
  | none => exact parseWork_none hw
  | some work =>
    rw [parseWork_some hw,
      (workloadOf_carries (carries_arguments hw) nofun work).mpr ⟨rfl, h.work work hw⟩]
    rfl

theorem parseArgs_argvFor_of_accepted (executable : String) (h : args.Accepted) :
    parseArgs ((argvFor executable args).drop 2) = .ok args := by
  have hargv : (argvFor executable args).drop 2 =
      (arguments args).flatMap fun each => [each.1, each.2] := rfl
  rw [hargv]
  simp only [parseArgs, bind_eq_ok]
  exact ⟨_, collect_arguments args, _, parseEndpoints_arguments h, _, pacingOf_arguments h, _,
    parseCpus_arguments args, _, parseWork_arguments h, rfl⟩

end Worker

section Rerun

/-- What a re-run takes: bounded work, with every unit checked and no place given. -/
structure RerunArgs.Accepted (args : RerunArgs) : Prop where
  unit : Bounded args.unit
  duty : args.unit.duty = {}
  physicalPackage : args.unit.physicalPackage = none
  physicalCore : args.unit.physicalCore = none
  numaNode : args.unit.numaNode = none

theorem collectPairs_known {known list : List String} {values collected : Values}
    (hv : ∀ key ∈ values.map Prod.fst, key ∈ known)
    (h : collectPairs known values list = .ok collected) :
    ∀ key ∈ collected.map Prod.fst, key ∈ known := by
  induction values, list using collectPairs.induct known with
  | case1 values =>
    cases h
    exact hv
  | case2 values key hunknown =>
    rw [collectPairs, if_pos hunknown] at h
    cases h
  | case3 values key hknown =>
    rw [collectPairs, if_neg hknown] at h
    cases h
  | case4 values key value rest hunknown =>
    rw [collectPairs, if_pos hunknown] at h
    cases h
  | case5 values key value rest hknown htwice =>
    rw [collectPairs, if_neg hknown, if_pos htwice] at h
    cases h
  | case6 values key value rest hknown htwice ih =>
    rw [collectPairs, if_neg hknown, if_neg htwice] at h
    refine ih ?_ h
    intro other hother
    rw [map_append, mem_append, map_singleton, mem_singleton] at hother
    obtain hother | rfl := hother
    · exact hv other hother
    · exact not_not.mp hknown

theorem collect_known {list required optional : List String} {values : Values}
    (h : collect list required optional = .ok values) :
    ∀ key ∈ values.map Prod.fst, key ∈ required ++ optional := by
  rw [collect, bind_eq_ok] at h
  obtain ⟨collected, hpairs, hrest⟩ := h
  have hsame : values = collected := by
    split at hrest
    · cases hrest
    · cases hrest
      rfl
  subst hsame
  refine collectPairs_known ?_ hpairs
  simp

theorem parseRerunArgs_accepted {list : List String} {args : RerunArgs}
    (h : parseRerunArgs list = .ok args) : args.Accepted := by
  simp only [parseRerunArgs, bind_eq_ok] at h
  obtain ⟨values, hvalues, unit, hunit, version, -, iteration, -, cpu, -, hargs⟩ := h
  cases hargs
  have hnone : ∀ key ∈ kWorkloadOptional, values.find key = none := by
    intro key hkey
    apply find_of_not_mem
    intro hmem
    have hunknown : ∀ key ∈ kWorkloadOptional, key ∉ kRerunRequired ++ [] := by decide
    exact hunknown key hkey (collect_known hvalues key hmem)
  obtain ⟨hbounded, hduty, hpackage, hcore, hnode⟩ := workloadOf_bounded hunit
  exact {
    unit := hbounded
    duty := hduty rfl
    physicalPackage := hpackage (hnone _ (by decide))
    physicalCore := hcore (hnone _ (by decide))
    numaNode := hnode (hnone _ (by decide)) }

variable {args : RerunArgs}

section

variable (h : args.Accepted)
include h

theorem rerunArguments_keys : (rerunArguments args).map Prod.fst = kRerunRequired := by
  rw [rerunArguments, addWorkload, h.physicalPackage, h.physicalCore, h.numaNode]
  rfl

theorem rerunArguments_nodup : ((rerunArguments args).map Prod.fst).Nodup := by
  rw [rerunArguments_keys h]
  decide

theorem carries_rerunArguments : Carries (rerunArguments args) args.unit false := by
  have hnodup := rerunArguments_nodup h
  have hapart : ∀ key ∈ kWorkloadOptional, key ∉ [kVersion, kIteration, kCpu] := by decide
  exact carries_of_append [] _ args.unit false hnodup hapart

theorem text_rerunArguments (key text : String)
    (hm : (key, text) ∈ rerunArguments args) : (rerunArguments args).text key = text :=
  text_of_find (find_of_mem _ _ _ (rerunArguments_nodup h) hm)

theorem collect_rerunArguments :
    collect ((rerunArguments args).flatMap fun each => [each.1, each.2]) kRerunRequired [] =
      .ok (rerunArguments args) := by
  apply collect_flatMap (rerunArguments_nodup h)
  · intro each heach
    rw [append_nil, ← rerunArguments_keys h]
    exact mem_map_of_mem heach
  · intro key hkey
    rwa [rerunArguments_keys h]

end

theorem parseRerunArgs_rerunArgvFor_of_accepted (executable : String) (h : args.Accepted) :
    parseRerunArgs ((rerunArgvFor executable args).drop 2) = .ok args := by
  have hargv : (rerunArgvFor executable args).drop 2 =
      (rerunArguments args).flatMap fun each => [each.1, each.2] := rfl
  have hversion : numberOf32 kVersion ((rerunArguments args).text kVersion) =
      .ok args.workloadVersion := by
    rw [text_rerunArguments h kVersion _ (mem_append_right _ (mem_of_getElem? (i := 0) rfl))]
    exact numberOf32_word kVersion args.workloadVersion
  have hiteration : numberOf kIteration ((rerunArguments args).text kIteration) =
      .ok args.iteration := by
    rw [text_rerunArguments h kIteration _ (mem_append_right _ (mem_of_getElem? (i := 1) rfl))]
    exact numberOf_word kIteration args.iteration
  have hcpu : numberOf32 kCpu ((rerunArguments args).text kCpu) = .ok args.cpu := by
    rw [text_rerunArguments h kCpu _ (mem_append_right _ (mem_of_getElem? (i := 2) rfl))]
    exact numberOf32_word kCpu args.cpu
  have hunit := (workloadOf_carries (carries_rerunArguments h) (fun _ => h.duty) args.unit).mpr
    ⟨rfl, h.unit⟩
  rw [hargv]
  simp only [parseRerunArgs, bind_eq_ok]
  exact ⟨_, collect_rerunArguments h, _, hunit, _, hversion, _, hiteration, _, hcpu, rfl⟩

end Rerun

/-- A command line written from what was read reads back as it, so no two values share one. -/
theorem command_lines_round_trip :
    (∀ list args executable, parseArgs list = .ok args →
      parseArgs ((argvFor executable args).drop 2) = .ok args) ∧
    (∀ list args executable, parseRerunArgs list = .ok args →
      parseRerunArgs ((rerunArgvFor executable args).drop 2) = .ok args) ∧
    (∀ list list' args args' executable executable', parseArgs list = .ok args →
      parseArgs list' = .ok args' → argvFor executable args = argvFor executable' args' →
      args = args') ∧
    (∀ list list' args args' executable executable', parseRerunArgs list = .ok args →
      parseRerunArgs list' = .ok args' →
      rerunArgvFor executable args = rerunArgvFor executable' args' → args = args') ∧
    ∀ args rerun executable executable', argvFor executable args ≠ rerunArgvFor executable' rerun := by
  have hworker : ∀ list args executable, parseArgs list = .ok args →
      parseArgs ((argvFor executable args).drop 2) = .ok args := by
    intro list args executable h
    exact parseArgs_argvFor_of_accepted executable (parseArgs_accepted h)
  have hrerun : ∀ list args executable, parseRerunArgs list = .ok args →
      parseRerunArgs ((rerunArgvFor executable args).drop 2) = .ok args := by
    intro list args executable h
    exact parseRerunArgs_rerunArgvFor_of_accepted executable (parseRerunArgs_accepted h)
  refine ⟨hworker, hrerun, ?_, ?_, ?_⟩
  · intro list list' args args' executable executable' h h' hline
    have hread := hworker list args executable h
    rw [hline, hworker list' args' executable' h'] at hread
    exact (Except.ok.inj hread).symm
  · intro list list' args args' executable executable' h h' hline
    have hread := hrerun list args executable h
    rw [hline, hrerun list' args' executable' h'] at hread
    exact (Except.ok.inj hread).symm
  · intro args rerun executable executable' hline
    have hswitch : kWorkerSwitch = kRerunSwitch := (cons.inj (cons.inj hline).2).1
    exact absurd hswitch (by decide)

def unitLine : List String :=
  [kLineBytes, "64", kWorkload, "word_sum", kSeed, "7", kFootprintBytes, "65536", kThreads, "2",
   kDecomposition, "04", kIsa, "avx2", kLock, "try"]

def unitRead : WorkloadArgs :=
  ⟨"word_sum", 7, 65536, 2, 4, .kAvx2, .kTry, {}, 64, none, none, none⟩

def workerLine : List String :=
  [kWorkers, "2", kSlot, "0", kHeartbeatFd, "3", kRecordFd, "4", kControlFd, "5",
   kSupervisorPid, "0100", kDurationMs, "60000", kIntervalMs, "10", kStaleAfterMs, "50",
   kCpus, "0,2", kOraclePeriod, "3", kIntegrityPeriod, "1", kNumaNode, "1"] ++ unitLine

def workerRead : WorkerArgs where
  slot := 0
  workers := 2
  heartbeatFd := 3
  recordFd := 4
  controlFd := 5
  supervisorPid := 100
  pacing := ⟨60000000000, 10000000, 50000000⟩
  cpus := [0, 2]
  workload := some { unitRead with duty := ⟨3, 1⟩, numaNode := some 1 }

/-- The arguments of a worker with a workload, and of a re-run, in another order than is written. -/
theorem worker_and_rerun_lines_round_trip :
    parseArgs workerLine = .ok workerRead ∧
      parseArgs ((argvFor "loadforge" workerRead).drop 2) = .ok workerRead ∧
      parseRerunArgs (unitLine ++ [kCpu, "6", kIteration, "9", kVersion, "1"]) =
        .ok ⟨unitRead, 1, 9, 6⟩ ∧
      parseRerunArgs ((rerunArgvFor "loadforge" ⟨unitRead, 1, 9, 6⟩).drop 2) =
        .ok ⟨unitRead, 1, 9, 6⟩ := by
  have hread : parseArgs workerLine = .ok workerRead := by decide +kernel
  have hrerun : parseRerunArgs (unitLine ++ [kCpu, "6", kIteration, "9", kVersion, "1"]) =
      .ok ⟨unitRead, 1, 9, 6⟩ := by decide +kernel
  exact ⟨hread, command_lines_round_trip.1 _ _ _ hread, hrerun,
    command_lines_round_trip.2.1 _ _ _ hrerun⟩

end LoadForge.Worker
