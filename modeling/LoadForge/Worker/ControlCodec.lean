import LoadForge.Framework.Parsing
import LoadForge.Worker.VerifiedRun

namespace LoadForge.Worker

open Framework Verification Workloads List

def putText (text : List UInt8) : List UInt8 := leBytes 4 text.length ++ text

def kCpuBytes : Nat := 4

def commandIndex : Command → Nat
  | .stop => 0
  | .pause => 1
  | .resume => 2
  | .setDuty _ => 3
  | .rebind _ => 4
  | .switch _ => 5

/-- The fields of a command, after the sequence number. -/
def commandBytes : Command → List UInt8
  | .setDuty duty => leBytes 2 duty.busyPermille.toNat ++ leBytes 8 (duty.periodNs % 2 ^ 64).toNat
  | .rebind cpus => leBytes 4 cpus.length ++ cpus.flatMap fun cpu => leBytes kCpuBytes cpu.toNat
  | .switch change =>
    putText (bytesOf change.workload) ++ (leBytes 8 change.seed.toNat ++
      (leBytes 8 change.footprintBytes.toNat ++ (leBytes 4 change.decomposition.toNat ++
        (leBytes 4 change.duty.oraclePeriod.toNat ++ leBytes 4 change.duty.integrityPeriod.toNat))))
  | _ => []

def encodeMessage (message : ControlMessage) : List UInt8 :=
  kControlFormatVersion :: UInt8.ofNat (commandIndex message.command + 1) ::
    (leBytes 4 message.sequence.toNat ++ commandBytes message.command)

def signed64 (word : Nat) : Int := if word < 2 ^ 63 then word else word - 2 ^ 64

def getCpus : Nat → List UInt8 → Option (List UInt32 × List UInt8)
  | 0, bytes => some ([], bytes)
  | count + 1, bytes => do
    let (cpu, rest) ← getLe kCpuBytes bytes
    let (cpus, rest) ← getCpus count rest
    return (UInt32.ofNat cpu :: cpus, rest)

/-- The command of a kind. A count of CPUs is not believed before there is room for as many. -/
def readCommand (kind : Nat) (bytes : List UInt8) : Option (Command × List UInt8) :=
  match kind with
  | 1 => some (.stop, bytes)
  | 2 => some (.pause, bytes)
  | 3 => some (.resume, bytes)
  | 4 => do
    let (busy, rest) ← getLe 2 bytes
    let (period, rest) ← getLe 8 rest
    return (.setDuty ⟨UInt16.ofNat busy, signed64 period⟩, rest)
  | 5 => do
    let (count, rest) ← getLe 4 bytes
    if rest.length / kCpuBytes < count then none
    else
      let (cpus, rest) ← getCpus count rest
      return (.rebind cpus, rest)
  | _ => do
    let (workload, rest) ← getText bytes
    let (seed, rest) ← getLe 8 rest
    let (footprint, rest) ← getLe 8 rest
    let (decomposition, rest) ← getLe 4 rest
    let (oracle, rest) ← getLe 4 rest
    let (integrity, rest) ← getLe 4 rest
    return (.switch ⟨textOf workload, UInt64.ofNat seed, UInt64.ofNat footprint,
      UInt32.ofNat decomposition, ⟨UInt32.ofNat oracle, UInt32.ofNat integrity⟩⟩, rest)

def readMessage (kind : Nat) (bytes : List UInt8) : Option (ControlMessage × List UInt8) := do
  let (sequence, rest) ← getLe 4 bytes
  let (command, rest) ← readCommand kind rest
  return (⟨UInt32.ofNat sequence, command⟩, rest)

def breaksRules (command : Command) : ControlDecodeError :=
  ⟨.kInvalid, "a " ++ commandName command ++ " that breaks the rules of its command"⟩

def unknownKind (kind : UInt8) : Option ControlDecodeError :=
  if kind.toNat < 1 ∨ 6 < kind.toNat then some ⟨.kKind, "kind " ++ toString kind⟩ else none

def judgeMessage (message : ControlMessage) : Except ControlDecodeError ControlMessage :=
  if isValid message.command then .ok message else .error (breaksRules message.command)

def decodeMessage : List UInt8 → Except ControlDecodeError ControlMessage :=
  decodeWith unknownKind (fun kind => readMessage kind.toNat) judgeMessage

def ackStatusCode : AckStatus → Nat
  | .kDone => 0
  | .kRefused => 1

def encodeAck (ack : ControlAck) : List UInt8 :=
  kControlFormatVersion :: kAckKind ::
    (leBytes 4 ack.sequence.toNat ++ (leBytes 1 (ackStatusCode ack.status) ++ putText ack.detail))

section Fields

theorem getLe_parses (width : Nat) : Parses (getLe width) (· < 256 ^ width) (leBytes width) := by
  intro bytes value rest
  unfold getLe
  constructor
  · intro h
    split_ifs at h with hroom
    cases h
    have hlen : (bytes.take width).length = width := length_take_of_le hroom
    have hback := leBytes_leNat (bytes.take width)
    rw [hlen] at hback
    constructor
    · have hlt := leNat_lt (bytes.take width)
      rwa [hlen] at hlt
    · rw [hback, take_append_drop]
  · rintro ⟨hlt, rfl⟩
    have hlen := leBytes_length width value
    simp [leNat_leBytes_of_lt _ _ hlt]

theorem getText_parses : Parses getText (·.length < 2 ^ 32) putText := by
  intro bytes text rest
  unfold getText
  rw [(getLe_parses 4).bind_iff]
  constructor
  · rintro ⟨size, more, hlt, rfl, hread⟩
    dsimp only at hread
    split_ifs at hread with hroom
    cases hread
    have hlen : (more.take size).length = size := length_take_of_le hroom
    refine ⟨lt_of_eq_of_lt hlen hlt, ?_⟩
    simp [putText, hlen]
  · rintro ⟨hlt, rfl⟩
    have hroom : text.length ≤ (text ++ rest).length := by
      rw [length_append]
      omega
    refine ⟨text.length, text ++ rest, hlt, ?_, ?_⟩
    · rw [putText, append_assoc]
    · simp only [if_pos hroom, take_left' rfl, drop_left' rfl]

def cpuBytes (cpus : List UInt32) : List UInt8 := cpus.flatMap fun cpu => leBytes kCpuBytes cpu.toNat

theorem cpuBytes_length (cpus : List UInt32) : (cpuBytes cpus).length = kCpuBytes * cpus.length := by
  simp [cpuBytes, length_flatMap, kCpuBytes, Nat.mul_comm]

theorem getCpus_parses (count : Nat) : Parses (getCpus count) (·.length = count) cpuBytes := by
  induction count with
  | zero =>
    intro bytes cpus rest
    constructor
    · intro h
      cases h
      exact ⟨rfl, rfl⟩
    · rintro ⟨hnil, rfl⟩
      rw [length_eq_zero_iff.mp hnil]
      rfl
  | succ count ih =>
    intro bytes cpus rest
    constructor
    · intro h
      obtain ⟨cpu, more, hlt, rfl, hmore⟩ := (getLe_parses kCpuBytes).bind_iff.mp h
      obtain ⟨others, left, hlen, rfl, hleft⟩ := ih.bind_iff.mp hmore
      cases hleft
      refine ⟨congrArg Nat.succ hlen, ?_⟩
      simp only [cpuBytes, flatMap_cons, UInt32.toNat_ofNat_of_lt' hlt, append_assoc]
    · rintro ⟨hlen, rfl⟩
      cases cpus with
      | nil => cases hlen
      | cons cpu cpus =>
        have hcpu := (getLe_parses kCpuBytes).read cpu.toNat_lt (cpuBytes cpus ++ rest)
        have hothers := ih.read (Nat.succ.inj hlen) rest
        rw [cpuBytes, flatMap_cons, append_assoc]
        change getCpus (count + 1) (leBytes kCpuBytes cpu.toNat ++ (cpuBytes cpus ++ rest)) = _
        rw [getCpus, hcpu]
        simp only [Option.bind_eq_bind, Option.bind_some, hothers, UInt32.ofNat_toNat]
        rfl

end Fields

theorem signed64_of_wrapped (value : Int) (hlo : -2 ^ 63 ≤ value) (hhi : value < 2 ^ 63) :
    signed64 (value % 2 ^ 64).toNat = value := by
  rw [signed64]
  split_ifs with hpos
  · omega
  · omega

theorem wrapped_of_signed64 {word : Nat} (h : word < 2 ^ 64) :
    (signed64 word % 2 ^ 64).toNat = word ∧ -2 ^ 63 ≤ signed64 word ∧ signed64 word < 2 ^ 63 := by
  rw [signed64]
  split_ifs with hpos
  · omega
  · omega

/-- A command whose period is one the source's type has. -/
def InRange : Command → Prop
  | .setDuty duty => -2 ^ 63 ≤ duty.periodNs ∧ duty.periodNs < 2 ^ 63
  | _ => True

instance (command : Command) : Decidable (InRange command) := by
  cases command <;> unfold InRange <;> infer_instance

/-- A command whose count of CPUs or of name bytes fits in its 32 bits. -/
def Countable : Command → Prop
  | .rebind cpus => cpus.length < 2 ^ 32
  | .switch change => change.workload.toList.length < 2 ^ 32
  | _ => True

/-- A command as the source's types hold it, its name a text of bytes. -/
structure Held (command : Command) : Prop where
  range : InRange command
  bytes : ∀ change, command = .switch change → ∀ c ∈ change.workload.toList, c.toNat < 256

/-- The fields of a command whose name is a text of bytes. -/
def heldBytes : Command → List UInt8
  | .switch change =>
    putText (rawBytes change.workload) ++ (leBytes 8 change.seed.toNat ++
      (leBytes 8 change.footprintBytes.toNat ++ (leBytes 4 change.decomposition.toNat ++
        (leBytes 4 change.duty.oraclePeriod.toNat ++ leBytes 4 change.duty.integrityPeriod.toNat))))
  | command => commandBytes command

theorem readDuty_parses : Parses (readCommand 4)
    (fun command => commandIndex command + 1 = 4 ∧ Held command ∧ Countable command) heldBytes := by
  intro bytes command rest
  constructor
  · intro h
    obtain ⟨busy, more, hbusy, rfl, hmore⟩ := (getLe_parses 2).bind_iff.mp h
    obtain ⟨period, left, hperiod, rfl, hleft⟩ := (getLe_parses 8).bind_iff.mp hmore
    obtain ⟨hword, hlo, hhi⟩ := wrapped_of_signed64 hperiod
    cases hleft
    refine ⟨⟨rfl, ⟨⟨hlo, hhi⟩, nofun⟩, trivial⟩, ?_⟩
    simp only [heldBytes, commandBytes, UInt16.toNat_ofNat_of_lt' hbusy, hword, append_assoc]
  · rintro ⟨⟨hindex, hheld, -⟩, rfl⟩
    cases command with
    | setDuty duty =>
      have hwrapped : (duty.periodNs % 2 ^ 64).toNat < 256 ^ 8 := by omega
      simp only [heldBytes, commandBytes, append_assoc, readCommand, Option.bind_eq_bind,
        (getLe_parses 2).read duty.busyPermille.toNat_lt, (getLe_parses 8).read hwrapped,
        Option.bind_some, signed64_of_wrapped _ hheld.range.1 hheld.range.2, UInt16.ofNat_toNat]
      rfl
    | _ => simp [commandIndex] at hindex

theorem readCpus_parses : Parses (readCommand 5)
    (fun command => commandIndex command + 1 = 5 ∧ Held command ∧ Countable command) heldBytes := by
  intro bytes command rest
  constructor
  · intro h
    obtain ⟨count, more, hlt, rfl, hmore⟩ := (getLe_parses 4).bind_iff.mp h
    dsimp only at hmore
    split_ifs at hmore
    obtain ⟨cpus, left, hlen, rfl, hleft⟩ := (getCpus_parses count).bind_iff.mp hmore
    cases hleft
    have hheld : Held (.rebind cpus) := ⟨trivial, nofun⟩
    refine ⟨⟨rfl, hheld, lt_of_eq_of_lt hlen hlt⟩, ?_⟩
    change _ = (leBytes 4 cpus.length ++ cpuBytes cpus) ++ left
    rw [hlen, append_assoc]
  · rintro ⟨⟨hindex, -, hcount⟩, rfl⟩
    cases command with
    | rebind cpus =>
      have hroom : ¬ (cpuBytes cpus ++ rest).length / kCpuBytes < cpus.length := by
        rw [length_append, cpuBytes_length, kCpuBytes]
        omega
      change readCommand 5 (leBytes 4 cpus.length ++ cpuBytes cpus ++ rest) = _
      simp only [append_assoc, readCommand, Option.bind_eq_bind, (getLe_parses 4).read hcount,
        Option.bind_some, if_neg hroom, (getCpus_parses cpus.length).read rfl]
      rfl
    | _ => simp [commandIndex] at hindex

theorem readSwitch_parses : Parses (readCommand 6)
    (fun command => commandIndex command + 1 = 6 ∧ Held command ∧ Countable command) heldBytes := by
  intro bytes command rest
  constructor
  · intro h
    obtain ⟨name, r₁, hname, rfl, h₁⟩ := getText_parses.bind_iff.mp h
    obtain ⟨seed, r₂, hseed, rfl, h₂⟩ := (getLe_parses 8).bind_iff.mp h₁
    obtain ⟨footprint, r₃, hfootprint, rfl, h₃⟩ := (getLe_parses 8).bind_iff.mp h₂
    obtain ⟨decomposition, r₄, hdecomposition, rfl, h₄⟩ := (getLe_parses 4).bind_iff.mp h₃
    obtain ⟨oracle, r₅, horacle, rfl, h₅⟩ := (getLe_parses 4).bind_iff.mp h₄
    obtain ⟨integrity, r₆, hintegrity, rfl, h₆⟩ := (getLe_parses 4).bind_iff.mp h₅
    cases h₆
    refine ⟨⟨rfl, ⟨trivial, ?_⟩, ?_⟩, ?_⟩
    · intro change hchange c hc
      cases hchange
      exact toNat_lt_of_textOf hc
    · rw [Countable, textOf, String.toList_ofList, length_map]
      exact hname
    · simp only [heldBytes, rawBytes_textOf, UInt64.toNat_ofNat_of_lt' hseed,
        UInt64.toNat_ofNat_of_lt' hfootprint, UInt32.toNat_ofNat_of_lt' hdecomposition,
        UInt32.toNat_ofNat_of_lt' horacle, UInt32.toNat_ofNat_of_lt' hintegrity,
        append_assoc]
  · rintro ⟨⟨hindex, hheld, hcount⟩, rfl⟩
    cases command with
    | switch change =>
      have hname : (rawBytes change.workload).length < 2 ^ 32 := by
        rw [rawBytes, length_map]
        exact hcount
      simp only [heldBytes, readCommand, Option.bind_eq_bind, append_assoc,
        getText_parses.read hname, Option.bind_some, (getLe_parses 8).read change.seed.toNat_lt,
        (getLe_parses 8).read change.footprintBytes.toNat_lt,
        (getLe_parses 4).read change.decomposition.toNat_lt,
        (getLe_parses 4).read change.duty.oraclePeriod.toNat_lt,
        (getLe_parses 4).read change.duty.integrityPeriod.toNat_lt, UInt64.ofNat_toNat,
        UInt32.ofNat_toNat, textOf_rawBytes _ (hheld.bytes change rfl)]
      rfl
    | _ => simp [commandIndex] at hindex

theorem readCommand_parses (kind : Nat) (hkind : ¬ (kind < 1 ∨ 6 < kind)) :
    Parses (readCommand kind)
      (fun command => commandIndex command + 1 = kind ∧ Held command ∧ Countable command)
      heldBytes := by
  have hplain : ∀ plain : Command, heldBytes plain = [] → Held plain → Countable plain →
      (∀ command, commandIndex command = commandIndex plain → command = plain) →
      Parses (fun bytes => some (plain, bytes))
        (fun command => commandIndex command + 1 = commandIndex plain + 1 ∧ Held command ∧
          Countable command) heldBytes := by
    intro plain hbytes hheld hcount honly bytes command rest
    constructor
    · intro h
      cases h
      exact ⟨⟨rfl, hheld, hcount⟩, by rw [hbytes]; rfl⟩
    · rintro ⟨⟨hindex, -, -⟩, rfl⟩
      rw [honly command (Nat.succ.inj hindex), hbytes]
      rfl
  have honly : ∀ command : Command, (commandIndex command = 0 → command = .stop) ∧
      (commandIndex command = 1 → command = .pause) ∧
      (commandIndex command = 2 → command = .resume) := by
    intro command
    cases command <;> simp [commandIndex]
  have hcases : kind = 1 ∨ kind = 2 ∨ kind = 3 ∨ kind = 4 ∨ kind = 5 ∨ kind = 6 := by omega
  rcases hcases with rfl | rfl | rfl | rfl | rfl | rfl
  · exact hplain .stop rfl ⟨trivial, nofun⟩ trivial fun command => (honly command).1
  · exact hplain .pause rfl ⟨trivial, nofun⟩ trivial fun command => (honly command).2.1
  · exact hplain .resume rfl ⟨trivial, nofun⟩ trivial fun command => (honly command).2.2
  · exact readDuty_parses
  · exact readCpus_parses
  · exact readSwitch_parses

/-- A command as it is read back: its name byte for byte. -/
def received : Command → Command
  | .switch change => .switch { change with workload := textOf (bytesOf change.workload) }
  | command => command

theorem isNameChar_ascii (c : Char) (hc : isNameChar c = true) : c.toNat < 128 := by
  simp only [isNameChar, Bool.or_eq_true, Bool.and_eq_true, decide_eq_true_eq, beq_iff_eq] at hc
  rcases hc with (⟨-, hz⟩ | ⟨-, hnine⟩) | hscore
  · have hle : c.toNat ≤ 'z'.toNat := hz
    exact Nat.lt_of_le_of_lt hle (by decide)
  · have hle : c.toNat ≤ '9'.toNat := hnine
    exact Nat.lt_of_le_of_lt hle (by decide)
  · rw [hscore]
    decide

theorem isValidName_ascii (name : String) (hn : isValidName name = true) :
    ∀ c ∈ name.toList, c.toNat < 128 := by
  intro c hc
  rw [isValidName] at hn
  cases hchars : name.toList with
  | nil =>
    rw [hchars] at hc
    cases hc
  | cons first more =>
    rw [hchars] at hc
    simp only [hchars, Bool.and_eq_true] at hn
    exact isNameChar_ascii c (all_eq_true.mp hn.2 c hc)

theorem isValidName_textOf (name : String) :
    isValidName (textOf (bytesOf name)) = isValidName name ∧
      (isValidName name = true → textOf (bytesOf name) = name) := by
  have hback : isValidName name = true → textOf (bytesOf name) = name :=
    fun hn => textOf_bytesOf name (isValidName_ascii name hn)
  refine ⟨?_, hback⟩
  cases hname : isValidName name with
  | true => rw [hback hname, hname]
  | false =>
    cases hread : isValidName (textOf (bytesOf name)) with
    | false => rfl
    | true =>
      have hascii := ascii_of_textOf name (isValidName_ascii _ hread)
      rw [textOf_bytesOf name hascii, hname] at hread
      cases hread

section

variable (command : Command)

theorem isValid_received : isValid (received command) = isValid command := by
  cases command with
  | switch change =>
    simp only [received, isValid, (isValidName_textOf change.workload).1]
  | _ => rfl

theorem received_valid (hv : isValid command = true) : received command = command := by
  cases command with
  | switch change =>
    simp only [isValid, Bool.and_eq_true] at hv
    rw [received, (isValidName_textOf change.workload).2 hv.1]
  | _ => rfl

theorem commandName_received : commandName (received command) = commandName command := by
  cases command <;> rfl

theorem kind_toNat : (UInt8.ofNat (commandIndex command + 1)).toNat = commandIndex command + 1 := by
  cases command <;> rfl

theorem heldBytes_received : heldBytes (received command) = commandBytes command := by
  cases command with
  | switch change => rw [received, heldBytes, rawBytes_textOf, commandBytes]
  | _ => rfl

end

/-- The encoding of a message whose name is a text of bytes. -/
def encodeHeld (message : ControlMessage) : List UInt8 :=
  kControlFormatVersion :: UInt8.ofNat (commandIndex message.command + 1) ::
    (leBytes 4 message.sequence.toNat ++ heldBytes message.command)

theorem encodeMessage_eq (message : ControlMessage) :
    encodeMessage message = encodeHeld ⟨message.sequence, received message.command⟩ := by
  have hindex : commandIndex (received message.command) = commandIndex message.command := by
    cases message.command <;> rfl
  rw [encodeHeld, heldBytes_received, hindex, encodeMessage]

theorem held_received {command : Command} (h : InRange command) : Held (received command) := by
  cases command with
  | switch change =>
    refine ⟨trivial, ?_⟩
    intro change' hchange c hc
    cases hchange
    exact toNat_lt_of_textOf hc
  | setDuty duty => exact ⟨h, nofun⟩
  | _ => exact ⟨trivial, nofun⟩

theorem message_parses (kind : UInt8) (hkind : unknownKind kind = none) :
    Parses (readMessage kind.toNat)
      (fun message => UInt8.ofNat (commandIndex message.command + 1) = kind ∧
        Held message.command ∧ Countable message.command)
      (fun message => leBytes 4 message.sequence.toNat ++ heldBytes message.command) := by
  have hrange : ¬ (kind.toNat < 1 ∨ 6 < kind.toNat) := by
    intro hbad
    rw [unknownKind, if_pos hbad] at hkind
    cases hkind
  have hindex : ∀ command : Command, UInt8.ofNat (commandIndex command + 1) = kind ↔
      commandIndex command + 1 = kind.toNat := by
    intro command
    rw [← UInt8.toNat_inj, kind_toNat]
  intro bytes message rest
  dsimp only
  rw [hindex]
  constructor
  · intro h
    obtain ⟨sequence, more, hsequence, rfl, hmore⟩ := (getLe_parses 4).bind_iff.mp h
    obtain ⟨command, left, hcommand, rfl, hleft⟩ :=
      (readCommand_parses kind.toNat hrange).bind_iff.mp hmore
    cases hleft
    refine ⟨hcommand, ?_⟩
    rw [UInt32.toNat_ofNat_of_lt' hsequence, append_assoc]
  · rintro ⟨hcommand, rfl⟩
    simp only [readMessage, Option.bind_eq_bind, append_assoc, Option.bind_some,
      (getLe_parses 4).read message.sequence.toNat_lt,
      (readCommand_parses kind.toNat hrange).read hcommand, UInt32.ofNat_toNat]
    rfl

section Envelope

variable {α β : Type}

variable {unknown : UInt8 → Option ControlDecodeError}
  {read : UInt8 → List UInt8 → Option (α × List UInt8)} {judge : α → Except ControlDecodeError β}
  (kindOf : α → UInt8) {ok : α → Prop} {put : α → List UInt8}
  (hread : ∀ kind, unknown kind = none →
    Parses (read kind) (fun a => kindOf a = kind ∧ ok a) put)

include hread

theorem decodeWith_append {a : α} (ha : ok a) (hkind : unknown (kindOf a) = none)
    (tail : List UInt8) :
    decodeWith unknown read judge (kControlFormatVersion :: kindOf a :: (put a ++ tail)) =
      if tail ≠ [] then .error ⟨.kTrailing, "bytes after the message"⟩ else judge a := by
  simp only [decodeWith, ne_eq, not_true_eq_false, if_false, hkind, (hread _ hkind).read ⟨rfl, ha⟩]

theorem decodeWith_cut {a : α} (ha : ok a) (hkind : unknown (kindOf a) = none)
    {front back : List UInt8} (hsplit : kControlFormatVersion :: kindOf a :: put a = front ++ back)
    (hfront : front ≠ []) (hback : back ≠ []) :
    ∃ detail, decodeWith unknown read judge front = .error ⟨.kTruncated, detail⟩ := by
  match front with
  | [] => exact absurd rfl hfront
  | [version] =>
    cases hsplit
    exact ⟨_, rfl⟩
  | version :: kind :: fields =>
    simp only [cons_append, cons.injEq] at hsplit
    obtain ⟨hversion, hsame, hfields⟩ := hsplit
    subst hversion
    subst hsame
    have hnone := (hread _ hkind).cut ⟨rfl, ha⟩ hfields hback
    refine ⟨"ends inside the message", ?_⟩
    simp only [decodeWith, ne_eq, not_true_eq_false, if_false, hkind, hnone]

theorem decodeWith_ok {bytes : List UInt8} {b : β}
    (h : decodeWith unknown read judge bytes = .ok b) :
    ∃ a, ok a ∧ judge a = .ok b ∧ bytes = kControlFormatVersion :: kindOf a :: put a := by
  match bytes with
  | [] => cases h
  | [version] =>
    rw [decodeWith] at h
    split_ifs at h
  | version :: kind :: fields =>
    rw [decodeWith] at h
    split_ifs at h with hversion
    rw [not_not] at hversion
    cases hkind : unknown kind with
    | some e =>
      simp only [hkind] at h
      cases h
    | none =>
      cases hfields : read kind fields with
      | none =>
        simp only [hkind, hfields] at h
        cases h
      | some result =>
        obtain ⟨a, left⟩ := result
        simp only [hkind, hfields] at h
        split_ifs at h with hleft
        rw [not_not] at hleft
        obtain ⟨⟨rfl, ha⟩, hbytes⟩ := (hread kind hkind _ _ _).mp hfields
        rw [hleft, append_nil] at hbytes
        exact ⟨a, ha, h, by rw [hversion, hbytes]⟩

end Envelope

section Message

theorem unknownKind_commandIndex (command : Command) :
    unknownKind (UInt8.ofNat (commandIndex command + 1)) = none := by
  cases command <;> rfl

theorem decodeMessage_append {message : ControlMessage} (hheld : Held message.command)
    (hcount : Countable message.command) (tail : List UInt8) :
    decodeMessage (encodeHeld message ++ tail) =
      if tail ≠ [] then .error ⟨.kTrailing, "bytes after the message"⟩ else judgeMessage message := by
  rw [decodeMessage, encodeHeld, cons_append, cons_append]
  exact decodeWith_append _ message_parses ⟨hheld, hcount⟩
    (unknownKind_commandIndex message.command) tail

theorem decodeMessage_encodeHeld {message : ControlMessage} (hheld : Held message.command)
    (hcount : Countable message.command) :
    decodeMessage (encodeHeld message) = judgeMessage message := by
  have happend := decodeMessage_append hheld hcount []
  rwa [append_nil, if_neg (by simp)] at happend

theorem countable_received {message : ControlMessage}
    (h : (encodeMessage message).length < 2 ^ 32) : Countable (received message.command) := by
  obtain ⟨sequence, command⟩ := message
  cases command with
  | rebind cpus =>
    have hlen : (commandBytes (.rebind cpus)).length = 4 + kCpuBytes * cpus.length := by
      rw [commandBytes, length_append, leBytes_length]
      exact congrArg (4 + ·) (cpuBytes_length cpus)
    simp only [encodeMessage, length_cons, length_append, hlen, kCpuBytes] at h
    change cpus.length < 2 ^ 32
    omega
  | switch change =>
    simp only [encodeMessage, commandBytes, putText, length_cons, length_append,
      leBytes_length] at h
    change (textOf (bytesOf change.workload)).toList.length < 2 ^ 32
    rw [textOf, String.toList_ofList, length_map]
    omega
  | _ => trivial

/-- A message that keeps its rules is read back, and one that does not is refused. -/
theorem decodeMessage_encodeMessage (message : ControlMessage) (hr : InRange message.command)
    (hl : (encodeMessage message).length < 2 ^ 32) :
    decodeMessage (encodeMessage message) =
      if isValid message.command then .ok message else .error (breaksRules message.command) := by
  rw [encodeMessage_eq, decodeMessage_encodeHeld (held_received hr) (countable_received hl),
    judgeMessage, isValid_received]
  split_ifs with hvalid
  · rw [received_valid _ hvalid]
  · rw [breaksRules, commandName_received]
    rfl

end Message

section Ack

def AckFields (fields : Nat × Nat × List UInt8) : Prop :=
  fields.1 < 2 ^ 32 ∧ fields.2.1 < 2 ^ 8 ∧ fields.2.2.length < 2 ^ 32

def ackBytes (fields : Nat × Nat × List UInt8) : List UInt8 :=
  leBytes 4 fields.1 ++ (leBytes 1 fields.2.1 ++ putText fields.2.2)

theorem readAck_parses : Parses readAck AckFields ackBytes := by
  intro bytes fields rest
  constructor
  · intro h
    obtain ⟨sequence, r₁, hsequence, rfl, h₁⟩ := (getLe_parses 4).bind_iff.mp h
    obtain ⟨status, r₂, hstatus, rfl, h₂⟩ := (getLe_parses 1).bind_iff.mp h₁
    obtain ⟨detail, r₃, hdetail, rfl, h₃⟩ := getText_parses.bind_iff.mp h₂
    cases h₃
    refine ⟨⟨hsequence, hstatus, hdetail⟩, ?_⟩
    simp [ackBytes]
  · rintro ⟨⟨hsequence, hstatus, hdetail⟩, rfl⟩
    simp only [readAck, ackBytes, Option.bind_eq_bind, append_assoc, Option.bind_some,
      (getLe_parses 4).read hsequence, (getLe_parses 1).read hstatus, getText_parses.read hdetail]
    rfl

theorem ack_parses (kind : UInt8) (hkind : unknownAckKind kind = none) :
    Parses readAck (fun fields => kAckKind = kind ∧ AckFields fields) ackBytes := by
  intro bytes fields rest
  rw [readAck_parses bytes fields rest]
  have heq : kAckKind = kind := by
    unfold unknownAckKind at hkind
    split_ifs at hkind with hne
    exact (not_not.mp hne).symm
  constructor
  · rintro ⟨hfields, hbytes⟩
    exact ⟨⟨heq, hfields⟩, hbytes⟩
  · rintro ⟨⟨-, hfields⟩, hbytes⟩
    exact ⟨hfields, hbytes⟩

/-- The encoding of an acknowledgement's fields, whatever they hold. -/
def encodeAckFields (fields : Nat × Nat × List UInt8) : List UInt8 :=
  kControlFormatVersion :: kAckKind :: ackBytes fields

def ackFields (ack : ControlAck) : Nat × Nat × List UInt8 :=
  (ack.sequence.toNat, ackStatusCode ack.status, ack.detail)

theorem judgeAck_ackFields {ack : ControlAck} (hd : ack.detail.length ≤ kMaxTextBytes) :
    judgeAck (ackFields ack) = .ok ack := by
  have hcode : ackStatusOf (ackStatusCode ack.status) = some ack.status := by
    cases ack.status <;> rfl
  simp only [judgeAck, ackFields, hcode, if_neg (Nat.not_lt.mpr hd), UInt32.ofNat_toNat]

theorem ackFields_fit (ack : ControlAck) (hd : ack.detail.length < 2 ^ 32) :
    AckFields (ackFields ack) := by
  refine ⟨ack.sequence.toNat_lt, ?_, hd⟩
  change ackStatusCode ack.status < 2 ^ 8
  cases ack.status <;> decide

theorem decodeAck_append {fields : Nat × Nat × List UInt8} (h : AckFields fields)
    (tail : List UInt8) :
    decodeAck (encodeAckFields fields ++ tail) =
      if tail ≠ [] then .error ⟨.kTrailing, "bytes after the message"⟩ else judgeAck fields := by
  rw [decodeAck, encodeAckFields, cons_append, cons_append]
  exact decodeWith_append (fun _ => kAckKind) ack_parses h rfl tail

theorem decodeAck_encodeAck (ack : ControlAck) (hd : ack.detail.length ≤ kMaxTextBytes) :
    decodeAck (encodeAck ack) = .ok ack := by
  have hmax : kMaxTextBytes = 1024 := rfl
  have happend := decodeAck_append (ackFields_fit ack (by omega)) []
  rw [append_nil, if_neg (by simp), judgeAck_ackFields hd] at happend
  exact happend

end Ack

end LoadForge.Worker
