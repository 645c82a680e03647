import Codemod.Text.Slice

/-!
Indentation of lines. Line feeds, blanks and tabs are single bytes that are part of no other
character, so a line and its blanks are found byte by byte.
-/

namespace Codemod.Text

def byteAt? (source : String) (offset : Nat) : Option UInt8 :=
  if inside : (⟨offset⟩ : String.Pos.Raw) < source.rawEndPos then
    some (source.getUTF8Byte ⟨offset⟩ inside)
  else none

def byteOf (c : Char) : UInt8 :=
  c.toNat.toUInt8

def lineStart (source : String) : Nat → Nat
  | 0 => 0
  | offset + 1 =>
      if byteAt? source offset = some (byteOf '\n') then offset + 1 else lineStart source offset

def blanksEnd (source : String) : Nat → Nat → Nat
  -- Whoever gives the number of bytes of the text never comes here.
  | 0, offset => offset
  | left + 1, offset =>
      let byte := byteAt? source offset
      if byte = some (byteOf ' ') ∨ byte = some (byteOf '\t') then
        blanksEnd source left (offset + 1)
      else offset

def lineIndent (source : String) (offset : Nat) : String :=
  -- An offset that addresses nothing is taken for one on the first line.
  let start := if (boundary? source offset).isSome then lineStart source offset else 0
  slice source start (blanksEnd source source.utf8ByteSize start)

end Codemod.Text
