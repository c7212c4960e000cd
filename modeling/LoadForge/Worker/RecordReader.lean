import LoadForge.Core.Crc32
import LoadForge.Framework.Framing
import LoadForge.Worker.Frames

namespace LoadForge.Ipc

open LoadForge.Core Framework Worker

def kFrameMagic : UInt32 := 0x4C465243
def kFrameVersion : UInt16 := 1
def kFrameHeaderBytes : Nat := 16
def kChecksumOffset : Nat := 12
def kMaxPayloadBytes : Nat := 65536

inductive FrameFault
  | kBadMagic | kBadVersion | kOversized | kBadChecksum | kTruncated
  deriving DecidableEq

structure FrameError where
  fault : FrameFault
  detail : String
  deriving DecidableEq

def FrameError.describe (e : FrameError) : String :=
  let text := match e.fault with
    | .kBadMagic => "the bytes do not begin a record frame"
    | .kBadVersion => "the frame is of a version this build does not read"
    | .kOversized => "the frame claims a payload larger than any this build writes"
    | .kBadChecksum => "the frame's checksum does not match its bytes"
    | .kTruncated => "the stream ended inside a frame"
  if e.detail = "" then text else text ++ ": " ++ e.detail

def foundExpected (what : String) (found expected : Nat) : String :=
  what ++ " " ++ toString found ++ ", expected " ++ toString expected

/-- The checksum a frame should carry: the header without its checksum field, then the payload. -/
def checksumOf (header payload : List UInt8) : UInt32 :=
  crc32Update (crc32 (header.take kChecksumOffset)) payload

def headerFields (record : Record) : List UInt8 :=
  leBytes 4 kFrameMagic.toNat ++ (leBytes 2 kFrameVersion.toNat ++
    (leBytes 2 record.type.toNat ++ leBytes 4 record.payload.length))

def frame (record : Record) : List UInt8 :=
  headerFields record ++
    (leBytes 4 (checksumOf (headerFields record) record.payload).toNat ++ record.payload)

def encode (type : UInt16) (payload : List UInt8) : Except FrameError (List UInt8) :=
  if kMaxPayloadBytes < payload.length then
    .error ⟨.kOversized, foundExpected "payload bytes" payload.length kMaxPayloadBytes⟩
  else .ok (frame ⟨type, payload⟩)

def field (bytes : List UInt8) (offset width : Nat) : Nat :=
  leNat ((bytes.drop offset).take width)

/-- A record, nothing yet, or a fault, in the order a reader can check. -/
def look (buffer : List UInt8) : Look Record (Option FrameError) :=
  if buffer.length < kFrameHeaderBytes then .stop none
  else if field buffer 0 4 ≠ kFrameMagic.toNat then
    .stop (some ⟨.kBadMagic, foundExpected "magic" (field buffer 0 4) kFrameMagic.toNat⟩)
  else if field buffer 4 2 ≠ kFrameVersion.toNat then
    .stop (some ⟨.kBadVersion, foundExpected "version" (field buffer 4 2) kFrameVersion.toNat⟩)
  else
    let length := field buffer 8 4
    if kMaxPayloadBytes < length then
      .stop (some ⟨.kOversized, foundExpected "payload bytes" length kMaxPayloadBytes⟩)
    else if buffer.length < kFrameHeaderBytes + length then .stop none
    else
      let payload := (buffer.drop kFrameHeaderBytes).take length
      let stored := field buffer kChecksumOffset 4
      let computed := checksumOf (buffer.take kFrameHeaderBytes) payload
      if stored ≠ computed.toNat then
        .stop (some ⟨.kBadChecksum, foundExpected "checksum" stored computed.toNat⟩)
      else
        .record ⟨UInt16.ofNat (field buffer 6 2), payload⟩
          (buffer.drop (kFrameHeaderBytes + length))

/-- Turns bytes, in whatever pieces they arrive, back into records. The first fault is final. -/
structure RecordReader where
  buffer : List UInt8 := []
  fault : Option FrameError := none
  deriving DecidableEq

namespace RecordReader

def feed (r : RecordReader) (bytes : List UInt8) : RecordReader :=
  { r with buffer := r.buffer ++ bytes }

def next (r : RecordReader) : Except FrameError (Option Record) × RecordReader :=
  match r.fault with
  | some fault => (.error fault, r)
  | none =>
    match look r.buffer with
    | .stop none => (.ok none, r)
    | .stop (some fault) => (.error fault, { r with fault := some fault })
    | .record record rest => (.ok (some record), { r with buffer := rest })

def finish (r : RecordReader) : Except FrameError Unit × RecordReader :=
  match r.fault with
  | some fault => (.error fault, r)
  | none =>
    if r.buffer ≠ [] then
      let fault := ⟨.kTruncated, foundExpected "bytes left" r.buffer.length 0⟩
      (.error fault, { r with fault := some fault })
    else (.ok (), r)

/-- The records handed out until there is none, and the fault at the end. -/
def drain : Nat → RecordReader → List Record × Option FrameError × RecordReader
  | 0, r => ([], none, r)
  | rounds + 1, r =>
    match r.next with
    | (.error fault, r') => ([], some fault, r')
    | (.ok none, r') => ([], none, r')
    | (.ok (some record), r') =>
      let (records, fault, r'') := drain rounds r'
      (record :: records, fault, r'')

/-- Chunks fed one by one; a frame has a byte at least, so there are rounds enough. -/
def receive : RecordReader → List (List UInt8) → List Record × Option FrameError × RecordReader
  | r, [] => ([], none, r)
  | r, chunk :: chunks =>
    match drain ((r.feed chunk).buffer.length + 1) (r.feed chunk) with
    | (records, some fault, r') => (records, some fault, r')
    | (records, none, r') =>
      let (more, fault, r'') := receive r' chunks
      (records ++ more, fault, r'')

end RecordReader

/-- The records a read completed, the fault it ran into, and whether the stream has ended. -/
structure Drained where
  records : List Record := []
  fault : Option FrameError := none
  endOfStream : Bool := false

end LoadForge.Ipc
