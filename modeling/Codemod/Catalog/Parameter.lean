import Codemod.Name

/-!
Parameters of configured rules. A rule is configured by an id and named values; reading a value
checks its type and what the rule asks of it, and says what is wrong otherwise.
-/

namespace Codemod

inductive ConfigValue where
  | bool (value : Bool)
  | integer (value : Int)
  | string (value : String)
  | list (items : List String)
  | stringMap (entries : List (String × String))
deriving DecidableEq, Repr

def ConfigValue.typeName : ConfigValue → String
  | .bool _ => "bool"
  | .integer _ => "integer"
  | .string _ => "string"
  | .list _ => "list"
  | .stringMap _ => "string map"

structure RuleSpec where
  id : String
  params : List (String × ConfigValue) := []
deriving DecidableEq, Repr

inductive Flaw where
  | mistyped (expected found : String)
  | empty
  | negative
  | notNames
  | sameSymbol (first second : String)
  | twoTargets
  | notClassConstant (text : String)
deriving DecidableEq, Repr

def Flaw.message : Flaw → String
  | .mistyped expected found => s!"expected {expected}, found {found}"
  | .empty => "must not be empty"
  | .negative => "must not be negative"
  | .notNames => "must be a non-empty list of names"
  | .sameSymbol first second => s!"'{first}' and '{second}' name the same symbol"
  | .twoTargets => "give either 'function' or 'method', not both"
  | .notClassConstant text => s!"'{text}' is not of the form Class::CONSTANT"

inductive SpecError where
  | unknownRule (id : String)
  | missingParameter (rule param : String)
  | invalidParameter (rule param : String) (flaw : Flaw)
deriving DecidableEq, Repr

def SpecError.message : SpecError → String
  | .unknownRule id => s!"unknown rule '{id}'"
  | .missingParameter rule param => s!"rule '{rule}' requires parameter '{param}'"
  | .invalidParameter rule param flaw =>
      s!"rule '{rule}': invalid parameter '{param}': {flaw.message}"

structure Params where
  rule : String
  values : List (String × ConfigValue)

namespace Params

def get? (params : Params) (param : String) : Option ConfigValue :=
  params.values.lookup param

def contains (params : Params) (param : String) : Bool :=
  (params.get? param).isSome

def missing {α : Type} (params : Params) (param : String) : Except SpecError α :=
  .error (.missingParameter params.rule param)

def invalid {α : Type} (params : Params) (param : String) (flaw : Flaw) : Except SpecError α :=
  .error (.invalidParameter params.rule param flaw)

def required {α : Type} (params : Params) (param : String) : Option α → Except SpecError α
  | some value => .ok value
  | none => params.missing param

def string? (params : Params) (param : String) : Except SpecError (Option String) :=
  match params.get? param with
  | none => .ok none
  | some (.string value) => .ok (some value)
  | some other => params.invalid param (.mistyped "string" other.typeName)

def requireString (params : Params) (param : String) : Except SpecError String := do
  let value ← params.required param (← params.string? param)
  if Text.allBlank value then params.invalid param .empty
  return value

def position? (params : Params) (param : String) : Except SpecError (Option Nat) :=
  match params.get? param with
  | none => .ok none
  | some (.integer value) =>
      match value with
      | .ofNat position => .ok (some position)
      | .negSucc _ => params.invalid param .negative
  | some other => params.invalid param (.mistyped "integer" other.typeName)

def requirePosition (params : Params) (param : String) : Except SpecError Nat := do
  params.required param (← params.position? param)

def requireList (params : Params) (param : String) : Except SpecError (List String) :=
  match params.get? param with
  | none => params.missing param
  | some (.list items) =>
      if items.isEmpty || items.any Text.allBlank then params.invalid param .notNames
      else .ok items
  | some other => params.invalid param (.mistyped "list" other.typeName)

def requireMap (params : Params) (param : String) : Except SpecError (List (String × String)) :=
  match params.get? param with
  | none => params.missing param
  | some (.stringMap entries) =>
      if entries.isEmpty then params.invalid param .empty else .ok entries
  | some other => params.invalid param (.mistyped "string map" other.typeName)

-- Refuse a table that has two keys for one name.
def distinct (params : Params) (param : String) (table : NameTable) : Except SpecError NameTable :=
  match table.clashing? with
  | some (first, second) => params.invalid param (.sameSymbol first second)
  | none => .ok table

def requireNameTable (params : Params) (param : String) : Except SpecError NameTable := do
  params.distinct param (← params.requireMap param)

def requireNames (params : Params) (param : String) : Except SpecError NameTable := do
  let table ← match params.get? param with
    | none => params.missing param
    | some (.stringMap entries) => pure entries
    | some (.list items) => pure (items.eraseDups.map fun item => (item, ""))
    | some (.string item) => pure [(item, "")]
    | some other => params.invalid param (.mistyped "list or string map" other.typeName)
  if table.isEmpty then params.invalid param .empty
  params.distinct param table

end Params

end Codemod
