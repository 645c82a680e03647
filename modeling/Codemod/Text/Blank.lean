/-!
Blank characters are the code points with the Unicode property White_Space; trimming takes them
off the ends of a text.
-/

namespace Codemod.Text

-- Whether a character has the property White_Space.
def isBlank (c : Char) : Bool :=
  let n := c.toNat
  (9 ≤ n && n ≤ 13) || n == 0x20 || n == 0x85 || n == 0xA0 || n == 0x1680 ||
    (0x2000 ≤ n && n ≤ 0x200A) || n == 0x2028 || n == 0x2029 || n == 0x202F || n == 0x205F ||
    n == 0x3000

def dropTrailing (drop : Char → Bool) (cs : List Char) : List Char :=
  (cs.reverse.dropWhile drop).reverse

def trimEnd (s : String) : String :=
  String.ofList (dropTrailing isBlank s.toList)

def trim (s : String) : String :=
  String.ofList (dropTrailing isBlank (s.toList.dropWhile isBlank))

-- A text with nothing but blanks in it, the empty text included.
def allBlank (s : String) : Bool :=
  s.toList.all isBlank

def lower (s : String) : String :=
  String.ofList (s.toList.map Char.toLower)

end Codemod.Text
