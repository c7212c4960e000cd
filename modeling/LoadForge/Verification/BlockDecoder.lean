import LoadForge.Framework.Buffer
import LoadForge.Framework.Lz4

namespace LoadForge.Verification.Compression

open Framework Framework.Lz4

def kRunMark : Nat := 15
def kMoreMark : UInt8 := 255
def kMinMatch : Nat := 4
def kLastLiterals : Nat := 5
def kMatchStartLimit : Nat := 12

inductive Rule
  | kNoLastSequence | kLiteralLengthTruncated | kLiteralsTruncated | kLiteralsTooLong
  | kLastTokenHasMatch | kDecodedTooShort | kOffsetTruncated | kOffsetZero | kOffsetBeforeStart
  | kMatchLengthTruncated | kMatchTooLate | kMatchIntoLastLiterals
  deriving DecidableEq

def Rule.describe : Rule → String
  | .kNoLastSequence => "the block ends without a last sequence of literals only"
  | .kLiteralLengthTruncated => "the block ends inside a literal length"
  | .kLiteralsTruncated => "the block ends inside the literals"
  | .kLiteralsTooLong => "the literals decode past the end of the decoded data"
  | .kLastTokenHasMatch => "the last sequence's token has a match length"
  | .kDecodedTooShort => "the block ends before the end of the decoded data"
  | .kOffsetTruncated => "the block ends inside an offset"
  | .kOffsetZero => "an offset of 0"
  | .kOffsetBeforeStart => "an offset reaching before the first decoded byte"
  | .kMatchLengthTruncated => "the block ends inside a match length"
  | .kMatchTooLate => "a match starting fewer than 12 bytes before the end of the decoded data"
  | .kMatchIntoLastLiterals => "a match covering the last 5 bytes of the decoded data"

structure Malformation where
  rule : Rule
  index : Nat
  decoded : Nat
  deriving DecidableEq

structure Summary where
  sequences : Nat := 0
  matches_ : Nat := 0
  maxOffset : Nat := 0
  longestLiterals : Nat := 0
  longestMatch : Nat := 0
  overlappingMatches : Nat := 0
  deriving DecidableEq

/-- Why a decoder stops; it must not come to the last two. -/
inductive Fault
  | malformed (malformation : Malformation)
  | outside
  | unfinished
  deriving DecidableEq

structure Refusal where
  fault : Fault
  decoded : List UInt8
  deriving DecidableEq

/-- One pass over one block: where it is in the block, and the bytes decoded so far. -/
structure Decoder where
  block : List UInt8
  next : Nat := 0
  decoded : Output UInt8
  summary : Summary := {}

namespace Decoder

def broken {α : Type} (d : Decoder) (rule : Rule) (index : Nat) : Except Refusal α :=
  .error ⟨.malformed ⟨rule, index, d.decoded.used⟩, d.decoded.buffer⟩

def stray {α : Type} (d : Decoder) : Except Refusal α := .error ⟨.outside, d.decoded.buffer⟩

/-- A length's extension bytes added to it, in 64 bits, and whether the block goes on. -/
def extend : Nat → Decoder → Nat → Except Refusal (Decoder × Nat × Bool)
  | 0, d, length => .ok (d, length, false)
  | room + 1, d, length =>
    match d.block[d.next]? with
    | none => d.stray
    | some value =>
      let d := { d with next := d.next + 1 }
      let length := (length + value.toNat) % 2 ^ 64
      if value ≠ kMoreMark then .ok (d, length, true) else extend room d length

/-- A length from its field, and whether it is all there. -/
def lengthOf (d : Decoder) (field base : Nat) : Except Refusal (Decoder × Nat × Bool) :=
  if field = kRunMark then d.extend (d.block.length - d.next) base else .ok (d, base, true)

def copied (d : Decoder) (length : Nat) (decoded : Output UInt8) : Decoder :=
  { d with
    next := d.next + length
    decoded := decoded
    summary := { d.summary with
      sequences := d.summary.sequences + 1
      longestLiterals := max d.summary.longestLiterals length } }

def literals (d : Decoder) (field : Nat) : Except Refusal Decoder :=
  match d.lengthOf field field with
  | .error refusal => .error refusal
  | .ok (d, _, false) => d.broken .kLiteralLengthTruncated d.next
  | .ok (d, length, true) =>
    if d.block.length - d.next < length then d.broken .kLiteralsTruncated d.next
    else if d.decoded.buffer.length - d.decoded.used < length then
      d.broken .kLiteralsTooLong d.next
    else
      match d.decoded.puts ((d.block.drop d.next).take length) with
      | none => d.stray
      | some decoded => .ok (d.copied length decoded)

/-- The block ended after a sequence's literals: that was the last one. -/
def last (d : Decoder) (tokenAt token : Nat) : Except Refusal (Summary × List UInt8) :=
  if token &&& 0x0F ≠ 0 then d.broken .kLastTokenHasMatch tokenAt
  else if d.decoded.used ≠ d.decoded.buffer.length then d.broken .kDecodedTooShort tokenAt
  else .ok (d.summary, d.decoded.buffer)

/-- Byte by byte, front to back: a match that overlaps its own output copies bytes it wrote. -/
def copyMatch (offset : Nat) : Nat → Output UInt8 → Option (Output UInt8)
  | 0, decoded => some decoded
  | count + 1, decoded =>
    (decoded.buffer[decoded.used - offset]?).bind fun value =>
      (decoded.put value).bind fun decoded => copyMatch offset count decoded

def matched (d : Decoder) (offset length : Nat) (decoded : Output UInt8) : Decoder :=
  { d with
    decoded := decoded
    summary := { d.summary with
      matches_ := d.summary.matches_ + 1
      maxOffset := max d.summary.maxOffset offset
      longestMatch := max d.summary.longestMatch length
      overlappingMatches := d.summary.overlappingMatches + if offset < length then 1 else 0 } }

/-- The match itself, once its offset and its length are read. -/
def repeatMatch (d : Decoder) (offsetAt offset length : Nat) : Except Refusal Decoder :=
  let size := d.decoded.buffer.length
  if size - d.decoded.used < kMatchStartLimit then d.broken .kMatchTooLate offsetAt
  else if size - d.decoded.used - kLastLiterals < length then
    d.broken .kMatchIntoLastLiterals offsetAt
  else
    match copyMatch offset length d.decoded with
    | none => d.stray
    | some decoded => .ok (d.matched offset length decoded)

def matchOf (d : Decoder) (field : Nat) : Except Refusal Decoder :=
  if d.block.length - d.next < 2 then d.broken .kOffsetTruncated d.next
  else
    match d.block[d.next]?, d.block[d.next + 1]? with
    | some low, some high =>
      let offset := low.toNat ||| high.toNat <<< 8
      let read := { d with next := d.next + 2 }
      if offset = 0 then read.broken .kOffsetZero d.next
      else if read.decoded.used < offset then read.broken .kOffsetBeforeStart d.next
      else
        match read.lengthOf field (field + kMinMatch) with
        | .error refusal => .error refusal
        | .ok (read, _, false) => read.broken .kMatchLengthTruncated read.next
        | .ok (read, length, true) => read.repeatMatch d.next offset length
    | _, _ => d.stray

/-- A sequence after a sequence. Each takes a byte of the block at least. -/
def run : Nat → Decoder → Except Refusal (Summary × List UInt8)
  | 0, d => .error ⟨.unfinished, d.decoded.buffer⟩
  | rounds + 1, d =>
    if d.next = d.block.length then d.broken .kNoLastSequence d.next
    else
      match d.block[d.next]? with
      | none => d.stray
      | some token =>
        match { d with next := d.next + 1 }.literals (token.toNat >>> 4) with
        | .error refusal => .error refusal
        | .ok d' =>
          if d'.next = d'.block.length then d'.last d.next token.toNat
          else
            match d'.matchOf (token.toNat &&& 0x0F) with
            | .error refusal => .error refusal
            | .ok d'' => d''.run rounds

end Decoder

/-- What a block decodes to in a buffer of the size it must have. -/
def decodeBlock (block decoded : List UInt8) : Except Refusal (Summary × List UInt8) :=
  Decoder.run (block.length + 1) { block := block, decoded := ⟨decoded, 0⟩ }

end LoadForge.Verification.Compression
