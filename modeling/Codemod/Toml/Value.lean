import Codemod.Toml.Moment

/-!
TOML values, and how a document is put together from headers and keys. A table remembers how it
came about, because that decides who may add to it later.
-/

namespace Codemod.Toml

inductive Origin where
  /-- Written in braces: complete as it stands. -/
  | inline
  /-- Named by a header. -/
  | header
  /-- Passed through by a header on the way to another table. -/
  | implied
  /-- Passed through by a dotted key. -/
  | dotted
deriving DecidableEq, Repr

inductive Value where
  | string (text : String)
  | integer (value : Int)
  | float (text : String)
  | bool (value : Bool)
  | moment (value : Moment)
  | array (items : List Value)
  | table (origin : Origin) (entries : List (String × Value))
  /-- Array of tables; headers add to the last one. -/
  | tables (elements : List (List (String × Value)))
deriving Repr

abbrev Entries := List (String × Value)

namespace Entries

def set (entries : Entries) (key : String) (value : Value) : Entries :=
  entries.map fun entry => if entry.1 = key then (key, value) else entry

def add (entries : Entries) (key : String) (value : Value) : Entries :=
  entries ++ [(key, value)]

/-- Put a value under a dotted key. Only tables made by dotted keys take new keys in this way;
the ones before them on the path may also be implied, or the last of an array of tables. -/
def insert : List String → String → Value → Entries → Option Entries
  | [], key, value, entries =>
      match entries.lookup key with
      | none => some (add entries key value)
      | some _ => none
  | part :: path, key, value, entries =>
      match entries.lookup part with
      | none => do
          return add entries part (.table .dotted (← insert path key value []))
      | some (.table .dotted inner) => do
          return set entries part (.table .dotted (← insert path key value inner))
      | some (.table .implied inner) =>
          if path.isEmpty then none
          else do return set entries part (.table .implied (← insert path key value inner))
      | some (.tables elements) =>
          match path.isEmpty, elements.getLast? with
          | false, some last => do
              let last ← insert path key value last
              return set entries part (.tables (elements.dropLast ++ [last]))
          | _, _ => none
      | some _ => none

def modify (change : Entries → Option Entries) : List String → Entries → Option Entries
  | [], entries => change entries
  | part :: path, entries =>
      match entries.lookup part with
      | none => do return add entries part (.table .implied (← modify change path []))
      | some (.table .inline _) => none
      | some (.table origin inner) => do
          return set entries part (.table origin (← modify change path inner))
      | some (.tables elements) =>
          match elements.getLast? with
          | some last => do
              let last ← modify change path last
              return set entries part (.tables (elements.dropLast ++ [last]))
          | none => none
      | some _ => none

def openTable (key : String) (entries : Entries) : Option Entries :=
  match entries.lookup key with
  | none => some (add entries key (.table .header []))
  | some (.table .implied inner) => some (set entries key (.table .header inner))
  | some _ => none

def openElement (key : String) (entries : Entries) : Option Entries :=
  match entries.lookup key with
  | none => some (add entries key (.tables [[]]))
  | some (.tables elements) => some (set entries key (.tables (elements ++ [[]])))
  | some _ => none

end Entries

end Codemod.Toml
