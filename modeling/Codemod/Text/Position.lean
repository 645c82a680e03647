/-!
Line and column of a byte offset. Lines and columns count from one; a line ends at a line feed
only, and a column is a number of characters.
-/

namespace Codemod

structure Position where
  line : Nat
  column : Nat
  offset : Nat
deriving DecidableEq, Repr, Inhabited

namespace Position

def scan (offset : Nat) : List Char → Nat → Nat → Nat → Position
  | [], _, line, column => ⟨line, column, offset⟩
  | c :: cs, here, line, column =>
      if offset ≤ here then ⟨line, column, offset⟩
      else if c = '\n' then scan offset cs (here + c.utf8Size) (line + 1) 1
      else scan offset cs (here + c.utf8Size) line (column + 1)

def ofOffset (source : String) (offset : Nat) : Position :=
  scan offset source.toList 0 1 1

def render (p : Position) : String :=
  s!"{p.line}:{p.column}"

end Position

end Codemod
