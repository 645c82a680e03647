/-!
Scalar literals, kept as they are spelled, and the strings that plain quoted literals stand for.
-/

namespace Codemod

inductive LiteralKind where
  | string
  | integer
  | float
  | true
  | false
  | null
deriving DecidableEq, Repr, Inhabited

namespace LiteralKind

def all : List LiteralKind :=
  [.string, .integer, .float, .true, .false, .null]

def name : LiteralKind → String
  | .string => "String"
  | .integer => "Integer"
  | .float => "Float"
  | .true => "True"
  | .false => "False"
  | .null => "Null"

def ofName? (word : String) : Option LiteralKind :=
  all.find? fun kind => kind.name == word

end LiteralKind

structure Literal where
  kind : LiteralKind
  raw : String
deriving DecidableEq, Repr, Inhabited

namespace Literal

-- Quotes and backslashes get a backslash in front, all else stands for itself.
def escape : List Char → List Char
  | [] => []
  | c :: cs => if c = '\'' ∨ c = '\\' then '\\' :: c :: escape cs else c :: escape cs

def ofString (value : String) : Literal :=
  ⟨.string, String.ofList ('\'' :: escape value.toList ++ ['\''])⟩

/-- Undo escapes: a backslash before a character that `decode` knows gives what it decodes to,
any other backslash stays. -/
def unescape (decode : Char → Option Char) : List Char → List Char
  | [] => []
  | [c] => [c]
  | c :: d :: cs =>
      if c = '\\' then
        match decode d with
        | some e => e :: unescape decode cs
        | none => c :: unescape decode (d :: cs)
      else c :: unescape decode (d :: cs)

def singleQuoted (c : Char) : Option Char :=
  if c = '\'' ∨ c = '\\' then some c else none

def doubleQuoted (c : Char) : Option Char :=
  if c = 'n' then some '\n'
  else if c = 't' then some '\t'
  else if c = 'r' then some '\r'
  else if c = '"' ∨ c = '\\' ∨ c = '$' then some c
  else none

def quote? (literal : Literal) : Option Char :=
  match literal.kind, literal.raw.toList with
  | .string, c :: cs =>
      if 2 ≤ literal.raw.utf8ByteSize ∧ (c :: cs).getLast? = some c then some c else none
  | _, _ => none

-- A spelling that starts and ends with one character of several bytes has no body between one-byte
-- quotes.
def misquoted (literal : Literal) : Bool :=
  match literal.quote? with
  | some c => decide (1 < c.utf8Size)
  | none => false

/-- What the literal stands for; nothing for other kinds of literal and where a dollar sign may
start an interpolation. -/
def stringValue? (literal : Literal) : Option String :=
  match literal.quote? with
  | none => none
  | some c =>
      let body := (literal.raw.toList.drop 1).dropLast
      if c = '\'' then some (String.ofList (unescape singleQuoted body))
      else if c = '"' then
        if body.contains '$' then none else some (String.ofList (unescape doubleQuoted body))
      else none

end Literal

end Codemod
