import Mathlib.Data.List.Basic
import Mathlib.Tactic.Ring

namespace LoadForge.Framework

open List

def utf8 (cs : List Char) : List UInt8 := cs.flatMap String.utf8EncodeChar

def headChar (text : List UInt8) : Option Char := text.toByteArray.utf8DecodeChar? 0

theorem utf8_nil : utf8 [] = [] := rfl

theorem utf8_cons (c : Char) (cs : List Char) :
    utf8 (c :: cs) = String.utf8EncodeChar c ++ utf8 cs := rfl

theorem utf8_append (cs ds : List Char) : utf8 (cs ++ ds) = utf8 cs ++ utf8 ds :=
  flatMap_append

theorem headChar_append (c : Char) (rest : List UInt8) :
    headChar (String.utf8EncodeChar c ++ rest) = some c := by
  rw [headChar, toByteArray_append, ByteArray.utf8DecodeChar?_utf8EncodeChar_append]

section Lossy

def replacementChar : Char := '�'

/-- The byte is inside of a character that begins before it. -/
def covered (text : List UInt8) (i : Nat) : Bool :=
  (List.range i).any fun j => (headChar (text.drop j)).any fun c => decide (i < j + c.utf8Size)

/-- A character, nothing inside of one, or the replacement for a byte that is part of none. -/
def lossyAt (text : List UInt8) (i : Nat) : List Char :=
  match headChar (text.drop i) with
  | some c => [c]
  | none => if covered text i then [] else [replacementChar]

/-- The text with every byte that is not part of a character replaced. -/
def lossy (text : List UInt8) : List Char := (List.range text.length).flatMap (lossyAt text)

end Lossy

end LoadForge.Framework
