import LoadForge.Core.Crc32
import LoadForge.Framework.Bytes

namespace LoadForge.Verification

open LoadForge.Core Framework

def kCopies : Nat := 3
def kControlWords : Nat := 6
def kWordsBytes : Nat := kControlWords * 8
def kCopyBytes : Nat := kWordsBytes + 4

/-- What the runner keeps protected, one 64-bit word each. -/
structure ControlWords where
  seed : UInt64
  seedPresent : UInt64
  index : UInt64
  oraclePeriod : UInt64
  integrityPeriod : UInt64
  lineBytes : UInt64
  deriving DecidableEq

variable (words : ControlWords)

def ControlWords.toList : List UInt64 :=
  [words.seed, words.seedPresent, words.index, words.oraclePeriod, words.integrityPeriod,
   words.lineBytes]

abbrev Stored : Type := { bytes : List UInt8 // bytes.length = kCopyBytes }

def wordsBytes : List UInt8 :=
  words.toList.flatMap fun word => leBytes 8 word.toNat

/-- One copy as it is stored: the words little-endian, then their checksum. -/
def encodeControl : Stored :=
  ⟨wordsBytes words ++ leBytes 4 (crc32 (wordsBytes words)).toNat, by
    simp [wordsBytes, ControlWords.toList, kCopyBytes, kWordsBytes, kControlWords]⟩

/-- One copy as read back: its words, and whether its checksum holds. -/
structure Decoded where
  words : ControlWords
  verified : Bool
  deriving DecidableEq

def wordAt (bytes : List UInt8) (index : Nat) : UInt64 :=
  UInt64.ofNat (leNat ((bytes.drop (8 * index)).take 8))

def decodeControl (stored : Stored) : Decoded where
  words := {
    seed := wordAt stored.1 0, seedPresent := wordAt stored.1 1, index := wordAt stored.1 2
    oraclePeriod := wordAt stored.1 3, integrityPeriod := wordAt stored.1 4
    lineBytes := wordAt stored.1 5 }
  verified := leNat (stored.1.drop kWordsBytes) = (crc32 (stored.1.take kWordsBytes)).toNat

inductive VoteFault
  | kDisagreement | kTooFewVerified
  deriving DecidableEq

def VoteFault.describe : VoteFault → String
  | .kDisagreement => "the verified copies of the control state disagree"
  | .kTooFewVerified => "fewer than two copies of the control state pass their checksums"

/-- A vote that decided nothing: why, and which copies passed their checksums. -/
structure VoteFailure where
  fault : VoteFault
  verified : List Bool
  deriving DecidableEq

def VoteFailure.describe (failure : VoteFailure) : String :=
  failure.fault.describe ++ " (" ++
    ", ".intercalate (failure.verified.zipIdx.map fun (verified, copy) =>
      "copy " ++ toString copy ++ if verified then " verified" else " fails its checksum") ++ ")"

/-- The control state: three copies, each in memory of its own. -/
structure ControlState where
  copies : List Stored
  repairs : UInt64 := 0
  three : copies.length = kCopies

/-- A value two verified copies hold, the first there is. -/
def agreed : List Decoded → Option ControlWords
  | [] => none
  | candidate :: rest =>
    if candidate.verified && rest.any fun other => other.verified && other.words == candidate.words
    then some candidate.words else agreed rest

def ControlState.write (state : ControlState) (words : ControlWords) : ControlState :=
  { state with
    copies := List.replicate kCopies (encodeControl words), three := List.length_replicate }

/-- A copy that does not hold the decided value is written again. -/
def repaired (stored : Stored) : Stored :=
  if (decodeControl stored).verified && (decodeControl stored).words == words then stored
  else encodeControl words

def ControlState.repair (state : ControlState) (words : ControlWords) : ControlState where
  copies := state.copies.map (repaired words)
  repairs := state.repairs + UInt64.ofNat (state.copies.countP fun stored =>
    !((decodeControl stored).verified && (decodeControl stored).words == words))
  three := by rw [List.length_map, state.three]

/-- The vote: the decided words and the copies repaired, or why nothing was decided. -/
def ControlState.read (state : ControlState) : Except VoteFailure (ControlWords × ControlState) :=
  let decoded := state.copies.map decodeControl
  let verified := decoded.map (·.verified)
  if decoded.countP (·.verified) < 2 then .error ⟨.kTooFewVerified, verified⟩
  else
    match agreed decoded with
    | none => .error ⟨.kDisagreement, verified⟩
    | some words => .ok (words, state.repair words)

/-- Memory that has gone wrong: one copy holds other bytes. -/
def ControlState.strike (state : ControlState) (copy : Nat) (bytes : Stored) : ControlState :=
  { state with
    copies := state.copies.set copy bytes, three := by rw [List.length_set, state.three] }

def ControlState.create (words : ControlWords) : ControlState where
  copies := List.replicate kCopies (encodeControl words)
  three := List.length_replicate

end LoadForge.Verification
