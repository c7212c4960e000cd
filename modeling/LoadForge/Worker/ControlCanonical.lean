import Mathlib.Data.List.Perm.Subperm
import LoadForge.Worker.ControlCodec
import LoadForge.Worker.RecordReader

namespace LoadForge.Worker

open Framework Ipc Verification Workloads List

theorem decodeMessage_cut {message : ControlMessage} (hheld : Held message.command)
    (hcount : Countable message.command) {front back : List UInt8}
    (hsplit : encodeHeld message = front ++ back) (hfront : front ≠ []) (hback : back ≠ []) :
    ∃ detail, decodeMessage front = .error ⟨.kTruncated, detail⟩ := by
  exact decodeWith_cut _ message_parses ⟨hheld, hcount⟩ (unknownKind_commandIndex message.command)
    hsplit hfront hback

theorem decodeAck_cut {fields : Nat × Nat × List UInt8} (h : AckFields fields)
    {front back : List UInt8} (hsplit : encodeAckFields fields = front ++ back) (hfront : front ≠ [])
    (hback : back ≠ []) : ∃ detail, decodeAck front = .error ⟨.kTruncated, detail⟩ := by
  exact decodeWith_cut (fun _ => kAckKind) ack_parses h rfl hsplit hfront hback

theorem received_of_valid {message : ControlMessage} (hvalid : isValid message.command = true) :
    encodeMessage message = encodeHeld message := by
  rw [encodeMessage_eq, received_valid _ hvalid]

theorem decodeMessage_ok {bytes : List UInt8} {message : ControlMessage}
    (h : decodeMessage bytes = .ok message) :
    Held message.command ∧ isValid message.command = true ∧ encodeMessage message = bytes := by
  obtain ⟨found, ⟨hheld, -⟩, hjudged, rfl⟩ := decodeWith_ok _ message_parses h
  unfold judgeMessage at hjudged
  split_ifs at hjudged with hvalid
  cases hjudged
  exact ⟨hheld, hvalid, received_of_valid hvalid⟩

theorem judgeAck_ok {fields : Nat × Nat × List UInt8} {ack : ControlAck}
    (h : judgeAck fields = .ok ack) (hfields : AckFields fields) :
    ack.detail.length ≤ kMaxTextBytes ∧ fields = ackFields ack := by
  obtain ⟨sequence, status, detail⟩ := fields
  obtain ⟨hsequence, -, -⟩ := hfields
  have hstatus : ∀ known, ackStatusOf status = some known → status = ackStatusCode known := by
    intro known hknown
    match status with
    | 0 =>
      cases hknown
      rfl
    | 1 =>
      cases hknown
      rfl
    | _ + 2 => cases hknown
  cases hknown : ackStatusOf status with
  | none =>
    simp only [judgeAck, hknown] at h
    cases h
  | some known =>
    simp only [judgeAck, hknown] at h
    split_ifs at h with hlong
    cases h
    refine ⟨Nat.le_of_not_lt hlong, ?_⟩
    rw [ackFields, UInt32.toNat_ofNat_of_lt' hsequence, ← hstatus known hknown]

theorem decodeAck_ok {bytes : List UInt8} {ack : ControlAck} (h : decodeAck bytes = .ok ack) :
    ack.detail.length ≤ kMaxTextBytes ∧ encodeAck ack = bytes := by
  obtain ⟨fields, hfields, hjudged, rfl⟩ := decodeWith_ok (fun _ => kAckKind) ack_parses h
  obtain ⟨hdetail, rfl⟩ := judgeAck_ok hjudged hfields
  exact ⟨hdetail, rfl⟩

section Size

def nameBytes : Command → Nat
  | .switch change => change.workload.toList.length
  | _ => 0

def kSwitchBytes : Nat := 38

/-- Distinct CPUs below the affinity mask's limit are at most as many as that. -/
theorem rebind_length_le {cpus : List UInt32} (h : isValid (.rebind cpus) = true) :
    cpus.length ≤ 1024 := by
  unfold isValid at h
  cases hlast : cpus.getLast? with
  | none =>
    rw [getLast?_eq_none_iff.mp hlast]
    exact Nat.zero_le _
  | some last =>
    simp only [hlast, Bool.and_eq_true, decide_eq_true_eq] at h
    obtain ⟨hbelow, hchain⟩ := h
    have hpairwise : cpus.Pairwise (· < ·) := isChain_iff_pairwise.mp hchain
    have hnodup : (cpus.map UInt32.toNat).Nodup := by
      apply pairwise_map.mpr
      apply hpairwise.imp
      intro a b hlt
      exact Nat.ne_of_lt hlt
    have hsub : cpus.map UInt32.toNat ⊆ range 1024 := by
      intro n hn
      obtain ⟨cpu, hcpu, rfl⟩ := mem_map.mp hn
      obtain ⟨front, hfront⟩ := getLast?_eq_some_iff.mp hlast
      have hle : cpu.toNat ≤ last.toNat := by
        rw [hfront] at hcpu hpairwise
        rcases mem_append.mp hcpu with hmem | hmem
        · have hlt := (pairwise_append.mp hpairwise).2.2 cpu hmem last (by simp)
          exact Nat.le_of_lt hlt
        · rw [mem_singleton.mp hmem]
      have hlt : last.toNat < 1024 := hbelow
      exact mem_range.mpr (by omega)
    have hle := (subperm_of_subset hnodup hsub).length_le
    rwa [length_map, length_range] at hle

theorem encodeHeld_length (message : ControlMessage) :
    (encodeHeld message).length = 6 + (heldBytes message.command).length := by
  rw [encodeHeld, length_cons, length_cons, length_append, leBytes_length]
  omega

theorem encodeHeld_fits {message : ControlMessage} (hvalid : isValid message.command = true) :
    (encodeHeld message).length ≤ kMaxPayloadBytes ↔
      nameBytes message.command + kSwitchBytes ≤ kMaxPayloadBytes := by
  rw [encodeHeld_length]
  have hmax : kMaxPayloadBytes = 65536 := rfl
  have hswitch : kSwitchBytes = 38 := rfl
  cases hcommand : message.command with
  | rebind cpus =>
    rw [hcommand] at hvalid
    have hcpus := rebind_length_le hvalid
    have hlen : (heldBytes (.rebind cpus)).length = 4 + kCpuBytes * cpus.length := by
      change (leBytes 4 cpus.length ++ cpuBytes cpus).length = _
      rw [length_append, leBytes_length, cpuBytes_length]
    have hname : nameBytes (.rebind cpus) = 0 := rfl
    rw [hlen, hname, kCpuBytes]
    omega
  | switch change =>
    simp [heldBytes, putText, rawBytes, nameBytes, leBytes_length]
    omega
  | _ => simp [heldBytes, commandBytes, nameBytes, hmax, hswitch]

theorem encodeAck_length (ack : ControlAck) : (encodeAck ack).length = 11 + ack.detail.length := by
  simp [encodeAck, putText, leBytes_length]
  omega

end Size

/-- Messages and acknowledgements have one encoding each; all else is refused for what is wrong. -/
theorem control_codec_is_canonical :
    (∀ message : ControlMessage, Held message.command → Countable message.command →
      isValid message.command = true →
        encodeMessage message = encodeHeld message ∧
          decodeMessage (encodeHeld message) = .ok message ∧
          ((encodeHeld message).length ≤ kMaxPayloadBytes ↔
            nameBytes message.command + kSwitchBytes ≤ kMaxPayloadBytes)) ∧
    (∀ ack : ControlAck, ack.detail.length ≤ kMaxTextBytes →
      decodeAck (encodeAck ack) = .ok ack ∧ (encodeAck ack).length ≤ kMaxPayloadBytes) ∧
    (∀ message : ControlMessage, Held message.command → Countable message.command →
      isValid message.command = false →
        decodeMessage (encodeHeld message) = .error (breaksRules message.command) ∧
          (breaksRules message.command).fault = .kInvalid) ∧
    (∀ message : ControlMessage, Held message.command → Countable message.command →
      (∀ front back, encodeHeld message = front ++ back → front ≠ [] → back ≠ [] →
        ∃ detail, decodeMessage front = .error ⟨.kTruncated, detail⟩) ∧
      ∀ tail, tail ≠ [] →
        ∃ detail, decodeMessage (encodeHeld message ++ tail) = .error ⟨.kTrailing, detail⟩) ∧
    (∀ fields, AckFields fields →
      (∀ front back, encodeAckFields fields = front ++ back → front ≠ [] → back ≠ [] →
        ∃ detail, decodeAck front = .error ⟨.kTruncated, detail⟩) ∧
      ∀ tail, tail ≠ [] →
        ∃ detail, decodeAck (encodeAckFields fields ++ tail) = .error ⟨.kTrailing, detail⟩) ∧
    (∀ bytes message, decodeMessage bytes = .ok message →
      Held message.command ∧ isValid message.command = true ∧ encodeMessage message = bytes) ∧
    ∀ bytes ack, decodeAck bytes = .ok ack →
      ack.detail.length ≤ kMaxTextBytes ∧ encodeAck ack = bytes := by
  refine ⟨?_, ?_, ?_, ?_, ?_, fun _ _ => decodeMessage_ok, fun _ _ => decodeAck_ok⟩
  · intro message hheld hcount hvalid
    refine ⟨received_of_valid hvalid, ?_, encodeHeld_fits hvalid⟩
    rw [decodeMessage_encodeHeld hheld hcount, judgeMessage, if_pos hvalid]
  · intro ack hdetail
    have hmax : kMaxTextBytes = 1024 := rfl
    have hframe : kMaxPayloadBytes = 65536 := rfl
    refine ⟨decodeAck_encodeAck ack hdetail, ?_⟩
    rw [encodeAck_length]
    omega
  · intro message hheld hcount hvalid
    refine ⟨?_, rfl⟩
    rw [decodeMessage_encodeHeld hheld hcount, judgeMessage, if_neg]
    rw [hvalid]
    exact Bool.false_ne_true
  · intro message hheld hcount
    refine ⟨fun front back => decodeMessage_cut hheld hcount, ?_⟩
    intro tail htail
    rw [decodeMessage_append hheld hcount, if_pos htail]
    exact ⟨_, rfl⟩
  · intro fields hfields
    refine ⟨fun front back => decodeAck_cut hfields, ?_⟩
    intro tail htail
    rw [decodeAck_append hfields, if_pos htail]
    exact ⟨_, rfl⟩

theorem rebind_has_one_encoding :
    decodeMessage (encodeHeld ⟨7, .rebind [1, 3]⟩) = .ok ⟨7, .rebind [1, 3]⟩ ∧
      ∃ detail, decodeMessage (encodeHeld ⟨7, .rebind [1, 3]⟩).dropLast =
        .error ⟨.kTruncated, detail⟩ := by
  have hheld : Held (.rebind [1, 3]) := ⟨trivial, nofun⟩
  have hcount : [(1 : UInt32), 3].length < 2 ^ 32 := by decide
  refine ⟨(control_codec_is_canonical.1 ⟨7, .rebind [1, 3]⟩ hheld hcount rfl).2.1, ?_⟩
  exact (control_codec_is_canonical.2.2.2.1 ⟨7, .rebind [1, 3]⟩ hheld hcount).1 _ [0]
    (by decide +kernel) (by decide +kernel) (by decide)

def switchNamed (letters : Nat) : ControlMessage :=
  ⟨0, .switch { workload := String.ofList (List.replicate letters 'a'), footprintBytes := 1 }⟩

theorem isValid_switchNamed (letters : Nat) :
    isValid (switchNamed (letters + 1)).command = true := by
  have hname : isValidName (String.ofList (replicate (letters + 1) 'a')) = true := by
    rw [isValidName, String.toList_ofList, replicate_succ, Bool.and_eq_true]
    refine ⟨by decide, ?_⟩
    rw [← replicate_succ, all_eq_true]
    intro c hc
    rw [eq_of_mem_replicate hc]
    decide
  simp only [switchNamed, isValid, hname, Bool.true_and, decide_eq_true_eq]
  decide

theorem switchNamed_fits (letters : Nat) :
    (encodeMessage (switchNamed (letters + 1))).length ≤ kMaxPayloadBytes ↔
      letters + 1 + kSwitchBytes ≤ kMaxPayloadBytes := by
  have hvalid := isValid_switchNamed letters
  rw [received_of_valid hvalid, encodeHeld_fits hvalid, switchNamed, nameBytes,
    String.toList_ofList, length_replicate]

/-- The rules of a name do not limit its length. -/
theorem valid_switch_does_not_fit :
    ∃ message : ControlMessage, isValid message.command = true ∧
      kMaxPayloadBytes < (encodeMessage message).length := by
  refine ⟨switchNamed (65498 + 1), isValid_switchNamed 65498, ?_⟩
  rw [← Nat.not_le, switchNamed_fits]
  decide

end LoadForge.Worker
