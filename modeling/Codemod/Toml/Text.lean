/-!
Strings of TOML: basic ones with escapes and literal ones without, each on one line or on several.
The readers start after the opening quotes and give the text and what follows the closing ones.
-/

namespace Codemod.Toml

def isControl (c : Char) : Bool :=
  (c.toNat < 0x20 && c != '\t') || c.toNat == 0x7F

def hexDigit? (c : Char) : Option Nat :=
  if '0' ≤ c ∧ c ≤ '9' then some (c.toNat - '0'.toNat)
  else if 'a' ≤ c ∧ c ≤ 'f' then some (c.toNat - 'a'.toNat + 10)
  else if 'A' ≤ c ∧ c ≤ 'F' then some (c.toNat - 'A'.toNat + 10)
  else none

def scalar? (digits : List Char) : Option Char := do
  let values ← digits.mapM hexDigit?
  let code := values.foldl (fun code digit => 16 * code + digit) 0
  if code.isValidChar then some (Char.ofNat code) else none

def simpleEscape? : Char → Option Char
  | 'b' => some '\x08'
  | 't' => some '\t'
  | 'n' => some '\n'
  | 'f' => some '\x0c'
  | 'r' => some '\r'
  | '"' => some '"'
  | '\\' => some '\\'
  | _ => none

abbrev Read := Option (List Char × List Char)

def Read.cons (c : Char) (read : Read) : Read :=
  read.map fun (text, rest) => (c :: text, rest)

def basic : List Char → Read
  | [] => none
  | '"' :: rest => some ([], rest)
  | '\\' :: 'u' :: a :: b :: c :: d :: rest => do
      Read.cons (← scalar? [a, b, c, d]) (basic rest)
  | '\\' :: 'U' :: a :: b :: c :: d :: e :: f :: g :: h :: rest => do
      Read.cons (← scalar? [a, b, c, d, e, f, g, h]) (basic rest)
  | '\\' :: c :: rest => do Read.cons (← simpleEscape? c) (basic rest)
  | c :: rest => if isControl c then none else Read.cons c (basic rest)

def literal : List Char → Read
  | [] => none
  | '\'' :: rest => some ([], rest)
  | c :: rest => if isControl c then none else Read.cons c (literal rest)

def blankLine : List Char → Bool
  | [] => false
  | c :: rest => c == '\n' || ((c == ' ' || c == '\t' || c == '\r') && blankLine rest)

-- After a backslash at the end of a line, blanks and ends of lines are skipped.
def multilineBasic : Bool → List Char → Read
  | _, [] => none
  | _, '"' :: '"' :: '"' :: '"' :: '"' :: rest => some (['"', '"'], rest)
  | _, '"' :: '"' :: '"' :: '"' :: rest => some (['"'], rest)
  | _, '"' :: '"' :: '"' :: rest => some ([], rest)
  | _, '\\' :: 'u' :: a :: b :: c :: d :: rest => do
      Read.cons (← scalar? [a, b, c, d]) (multilineBasic false rest)
  | _, '\\' :: 'U' :: a :: b :: c :: d :: e :: f :: g :: h :: rest => do
      Read.cons (← scalar? [a, b, c, d, e, f, g, h]) (multilineBasic false rest)
  | _, '\\' :: c :: rest =>
      if blankLine (c :: rest) then multilineBasic true rest
      else do Read.cons (← simpleEscape? c) (multilineBasic false rest)
  | skipping, '\r' :: '\n' :: rest =>
      if skipping then multilineBasic true rest
      else Read.cons '\n' (multilineBasic false rest)
  | skipping, c :: rest =>
      if skipping && (c == ' ' || c == '\t' || c == '\n') then multilineBasic true rest
      else if isControl c && c != '\n' then none
      else Read.cons c (multilineBasic false rest)

def multilineLiteral : List Char → Read
  | [] => none
  | '\'' :: '\'' :: '\'' :: '\'' :: '\'' :: rest => some (['\'', '\''], rest)
  | '\'' :: '\'' :: '\'' :: '\'' :: rest => some (['\''], rest)
  | '\'' :: '\'' :: '\'' :: rest => some ([], rest)
  | '\r' :: '\n' :: rest => Read.cons '\n' (multilineLiteral rest)
  | c :: rest =>
      if isControl c && c != '\n' then none else Read.cons c (multilineLiteral rest)

-- The end of a line right after the opening quotes does not belong to the text.
def dropNewline : List Char → List Char
  | '\n' :: rest => rest
  | '\r' :: '\n' :: rest => rest
  | rest => rest

def singleLine? : List Char → Read
  | '"' :: rest => basic rest
  | '\'' :: rest => literal rest
  | _ => none

def string? : List Char → Read
  | '"' :: '"' :: '"' :: rest => multilineBasic false (dropNewline rest)
  | '\'' :: '\'' :: '\'' :: rest => multilineLiteral (dropNewline rest)
  | rest => singleLine? rest

end Codemod.Toml
