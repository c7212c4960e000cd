import Mathlib.Data.List.Basic
import Mathlib.Tactic.Ring

namespace LoadForge.Core

def kPolynomial : UInt32 := 0xEDB88320

def tableBit (entry : UInt32) : UInt32 :=
  if entry &&& 1 ≠ 0 then (entry >>> 1) ^^^ kPolynomial else entry >>> 1

def tableEntry (index : UInt32) : UInt32 := (List.range 8).foldl (fun entry _ => tableBit entry) index

def crcByte (running : UInt32) (byte : UInt8) : UInt32 :=
  tableEntry ((running ^^^ byte.toUInt32) &&& 0xFF) ^^^ (running >>> 8)

/-- A checksum continued over more bytes. The running value is kept inverted between calls. -/
def crc32Update (crc : UInt32) (bytes : List UInt8) : UInt32 :=
  ~~~(bytes.foldl crcByte (~~~crc))

def crc32 (bytes : List UInt8) : UInt32 := crc32Update 0 bytes

example : crc32 [0x31, 0x32, 0x33, 0x34, 0x35, 0x36, 0x37, 0x38, 0x39] = 0xCBF43926 := by
  decide +kernel

end LoadForge.Core
