import Codemod.Toml.Scalar

/-!
Reading a TOML document. Every expression stands on a line of its own: a header, a key with its
value, or nothing but a comment. A text that is no document gives nothing.
-/

namespace Codemod.Toml

abbrev Reader (α : Type) := StateT (List Char) Option α

namespace Reader

def ofRead (read : List Char → Read) : Reader String := do
  let (text, rest) ← read (← get)
  set rest
  return String.ofList text

def expect (c : Char) : Reader Unit := do
  match ← get with
  | d :: rest => if c = d then set rest else failure
  | [] => failure

def skipBlanks : Reader Unit :=
  modify (List.dropWhile fun c => c == ' ' || c == '\t')

def skipComment : Reader Unit := do
  match ← get with
  | '#' :: rest =>
      if (rest.takeWhile fun c => c != '\n' && c != '\r').any isControl then failure
      else set (rest.dropWhile fun c => c != '\n' && c != '\r')
  | _ => return

def lineEnd : Reader Unit := do
  match ← get with
  | [] => return
  | '\n' :: rest => set rest
  | '\r' :: '\n' :: rest => set rest
  | _ => failure

def finishLine : Reader Unit := do
  skipBlanks
  skipComment
  lineEnd

def isBareKeyChar (c : Char) : Bool :=
  c.isAlphanum || c == '_' || c == '-'

def simpleKey : Reader String := do
  match ← get with
  | '"' :: _ | '\'' :: _ => ofRead singleLine?
  | cs =>
      let key := cs.takeWhile isBareKeyChar
      if key.isEmpty then failure
      set (cs.dropWhile isBareKeyChar)
      return String.ofList key

-- How many values may hold each other, and how many parts a key may have.
def greatestDepth : Nat :=
  79

def dottedKey : Nat → Reader (List String)
  | 0 => failure
  | steps + 1 => do
      skipBlanks
      let part ← simpleKey
      skipBlanks
      match ← get with
      | '.' :: rest =>
          set rest
          return part :: (← dottedKey steps)
      | _ => return [part]

def key : Reader (List String) :=
  dottedKey greatestDepth

def skipLines : Nat → Reader Unit
  | 0 => return
  | steps + 1 => do
      skipBlanks
      match ← get with
      | '\n' :: rest => set rest; skipLines steps
      | '\r' :: '\n' :: rest => set rest; skipLines steps
      | '#' :: _ => skipComment; skipLines steps
      | _ => return

def splitKey (parts : List String) : Reader (List String × String) :=
  match parts.getLast? with
  | some last => return (parts.dropLast, last)
  | none => failure

mutual

def value (depth : Nat) : Nat → Reader Value
  | 0 => failure
  | steps + 1 => do
      match ← get with
      | '"' :: _ | '\'' :: _ => return .string (← ofRead string?)
      | '[' :: rest =>
          if depth = 0 then failure
          set rest
          return .array (← items (depth - 1) steps)
      | '\x7b' :: rest =>
          if depth = 0 then failure
          set rest
          skipBlanks
          match ← get with
          | '\x7d' :: rest =>
              set rest
              return .table .inline []
          | _ => return .table .inline (← fields (depth - 1) steps [])
      | cs =>
          let (word, rest) := scalarText cs
          let found ← scalarValue? word
          set rest
          return found

def items (depth : Nat) : Nat → Reader (List Value)
  | 0 => failure
  | steps + 1 => do
      skipLines (← get).length
      match ← get with
      | ']' :: rest =>
          set rest
          return []
      | _ =>
          let item ← value depth steps
          skipLines (← get).length
          match ← get with
          | ',' :: rest =>
              set rest
              return item :: (← items depth steps)
          | _ =>
              expect ']'
              return [item]

def fields (depth : Nat) : Nat → Entries → Reader Entries
  | 0, _ => failure
  | steps + 1, entries => do
      let (path, last) ← splitKey (← key)
      expect '='
      skipBlanks
      let found ← value depth steps
      let entries ← Entries.insert path last found entries
      skipBlanks
      match ← get with
      | ',' :: rest =>
          set rest
          fields depth steps entries
      | _ =>
          expect '\x7d'
          return entries

end

/-- The document on the way: what has been read, and the table that keys go to. -/
structure Document where
  entries : Entries := []
  current : List String := []

def header (document : Document) : Reader Document := do
  expect '['
  let isElement := (← get).head? == some '['
  if isElement then expect '['
  let path ← key
  let (parents, last) ← splitKey path
  expect ']'
  if isElement then expect ']'
  finishLine
  let opening := if isElement then Entries.openElement last else Entries.openTable last
  let entries ← Entries.modify opening parents document.entries
  return { entries, current := path }

def keyValue (document : Document) : Reader Document := do
  let (path, last) ← splitKey (← key)
  expect '='
  skipBlanks
  let found ← value greatestDepth (← get).length
  finishLine
  let entries ← Entries.modify (Entries.insert path last found) document.current document.entries
  return { document with entries }

def lines : Nat → Document → Reader Document
  | 0, _ => failure
  | steps + 1, document => do
      skipBlanks
      match ← get with
      | [] => return document
      | '[' :: _ => lines steps (← header document)
      | '\n' :: _ | '\r' :: _ | '#' :: _ =>
          finishLine
          lines steps document
      | _ => lines steps (← keyValue document)

end Reader

-- A byte order mark in front of a text is no part of it.
def dropMark : List Char → List Char
  | c :: rest => if c.toNat = 0xFEFF then rest else c :: rest
  | [] => []

def parse? (text : String) : Option Entries :=
  let cs := dropMark text.toList
  ((Reader.lines (cs.length + 1) {}).run cs).map fun read => read.1.entries

end Codemod.Toml
