import Codemod.Catalog
import Codemod.Glob
import Codemod.SourceUnit
import Codemod.Text.Parts
import Codemod.Toml.Parse

/-!
The configuration file: options of the engine, rules in order, paths to leave out, known classes
and the form of the report. What the file does not say has a default, and what it says besides is
ignored.
-/

namespace Codemod

structure Config where
  maxPasses : Nat := ({} : RunOptions).maxPasses
  indent : String := ({} : PrintOptions).indent
  chainThreshold : Nat := ({} : PrintOptions).chainThreshold
  rules : List RuleSpec := []
  exclude : List String := []
  classes : List (String × List String) := []
  format : Option String := none
deriving DecidableEq, Repr

namespace Config

open Toml (Value)

-- The entries of a table. A moment counts as a table that holds its text.
def entries? : Value → Option Toml.Entries
  | .table _ entries => some entries
  | .moment value => some [("$__toml_private_datetime", .string value.text)]
  | _ => none

-- The fields of a record: a table by their names, or an array in their order.
def fields? (names : List String) : Value → Option Toml.Entries
  | .array items => some (names.zip items)
  | .tables elements => some (names.zip (elements.map (.table .header ·)))
  | value => entries? value

def string? : Value → Option String
  | .string text => some text
  | _ => none

def natural? : Value → Option Nat
  | .integer (.ofNat value) => some value
  | _ => none

def strings? : Value → Option (List String)
  | .array items => items.mapM string?
  | _ => none

def table? {α : Type} (read : Value → Option α) (value : Value) :
    Option (List (String × α)) := do
  (← entries? value).mapM fun (key, value) => do return (key, ← read value)

-- A field that may be left out, but must be right where it is given.
def field {α : Type} (read : Value → Option α) (default : α) (entries : Toml.Entries)
    (name : String) : Option α :=
  match entries.lookup name with
  | some value => read value
  | none => some default

def configValue? : Value → Option ConfigValue
  | .bool value => some (.bool value)
  | .integer value => some (.integer value)
  | .string text => some (.string text)
  | .array items => (items.mapM string?).map .list
  | value => (table? string? value).map .stringMap

def ruleSpec? (value : Value) : Option RuleSpec := do
  let entries ← fields? ["id", "params"] value
  let id ← (entries.lookup "id").bind string?
  let params ← field (table? configValue?) [] entries "params"
  return { id, params }

def rules? : Value → Option (List RuleSpec)
  | .array items => items.mapM ruleSpec?
  | .tables elements => elements.mapM fun entries => ruleSpec? (.table .header entries)
  | _ => none

def section? (entries : Toml.Entries) (title : String) (names : List String) :
    Option Toml.Entries :=
  match entries.lookup title with
  | some value => fields? names value
  | none => some []

def ofToml? (entries : Toml.Entries) : Option Config := do
  let default : Config := {}
  let engine ← section? entries "engine" ["max_passes", "indent", "chain_threshold"]
  let paths ← section? entries "paths" ["exclude"]
  let symbols ← section? entries "symbols" ["classes"]
  let output ← section? entries "output" ["format"]
  return {
    maxPasses := ← field natural? default.maxPasses engine "max_passes"
    indent := ← field string? default.indent engine "indent"
    chainThreshold := ← field natural? default.chainThreshold engine "chain_threshold"
    rules := ← field rules? [] entries "rules"
    exclude := ← field strings? [] paths "exclude"
    classes := ← field (table? strings?) [] symbols "classes"
    format := ← field (fun value => (string? value).map some) none output "format" }

def parse? (text : String) : Option Config :=
  (Toml.parse? text).bind ofToml?

/-- The rules to run. Rules asked for by id replace the list of the file; they take their
parameters from the first entry with that id. -/
def effectiveRules (config : Config) (ids : List String) : List RuleSpec :=
  if ids.isEmpty then config.rules
  else ids.map fun id => (config.rules.find? fun spec => spec.id == id).getD { id }

def engineOptions (config : Config) (maxPasses : Option Nat) (stopOnError : Bool)
    (steps : Nat := ({} : RunOptions).steps) : EngineOptions where
  run := { maxPasses := maxPasses.getD config.maxPasses, steps }
  print := { indent := config.indent, chainThreshold := config.chainThreshold }
  stopOnError := stopOnError

def symbols (config : Config) : Symbols :=
  Symbols.ofList config.classes

def fileName? (path : String) : Option String :=
  match ((Text.parts path).filter fun part => part ≠ "" ∧ part ≠ ".").getLast? with
  | some name => if name = ".." then none else some name
  | none => none

def hasInfix (cs part : List Char) : Bool :=
  (Glob.ends cs).any part.isPrefixOf

def passesThrough (path : String) (pattern : String) : Bool :=
  let directory := Text.dropTrailing (· == '/') pattern.toList ++ ['/']
  directory.isPrefixOf path.toList || hasInfix path.toList ('/' :: directory)

def excludedBy (path : String) (pattern : String) : Bool :=
  Glob.accepts pattern path || (fileName? path).any (Glob.accepts pattern)
    || (pattern.endsWith "/" && passesThrough path pattern)

/-- Whether a path is left out: a pattern stands for it or for its last component, or names a
directory on its way. -/
def excludes (config : Config) (path : String) : Bool :=
  config.exclude.any (excludedBy path)

end Config

end Codemod
