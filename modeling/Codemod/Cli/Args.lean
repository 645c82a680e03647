/-!
The command line. Options may stand anywhere before `--`, long ones may carry their value after an
equals sign, and short ones may be joined. No option but `--rule` may be given twice.
-/

namespace Codemod.Cli

structure Args where
  paths : List String := []
  check : Bool := false
  fix : Bool := false
  verbose : Bool := false
  rules : List String := []
  format : Option String := none
  json : Bool := false
  config : Option String := none
  noConfig : Bool := false
  maxPasses : Option Nat := none
  stopOnError : Bool := false
  listRules : Bool := false
deriving DecidableEq, Repr

inductive Invocation where
  | run (args : Args)
  | help
  | version
deriving DecidableEq, Repr

inductive UsageError where
  | unexpected (argument : String)
  | unexpectedValue (option : String)
  | missingValue (option : String)
  | invalidValue (option value : String)
  | repeated (option : String)
  | conflicting (first second : String)
  | missingPaths
deriving DecidableEq, Repr

def UsageError.message : UsageError → String
  | .unexpected argument => s!"unexpected argument '{argument}' found"
  | .unexpectedValue option => s!"unexpected value for '{option}' found"
  | .missingValue option => s!"a value is required for '{option}' but none was supplied"
  | .invalidValue option value => s!"invalid value '{value}' for '{option}'"
  | .repeated option => s!"the argument '{option}' cannot be used multiple times"
  | .conflicting first second =>
      s!"the argument '{first}' cannot be used with '{second}'"
  | .missingPaths => "the following required arguments were not provided: <PATHS>..."

inductive Flag where
  | check
  | fix
  | verbose
  | json
  | noConfig
  | stopOnError
  | listRules
deriving DecidableEq, Repr

inductive Setting where
  | rule
  | format
  | config
  | maxPasses
deriving DecidableEq, Repr

inductive Switch where
  | flag (flag : Flag)
  | setting (setting : Setting)
  | help
  | version
deriving DecidableEq, Repr

def Flag.name : Flag → String
  | .check => "--check"
  | .fix => "--fix"
  | .verbose => "--verbose"
  | .json => "--json"
  | .noConfig => "--no-config"
  | .stopOnError => "--stop-on-error"
  | .listRules => "--list-rules"

def Setting.name : Setting → String
  | .rule => "--rule"
  | .format => "--format"
  | .config => "--config"
  | .maxPasses => "--max-passes"

def longOption? : String → Option Switch
  | "--check" => some (.flag .check)
  | "--fix" => some (.flag .fix)
  | "--verbose" => some (.flag .verbose)
  | "--json" => some (.flag .json)
  | "--no-config" => some (.flag .noConfig)
  | "--stop-on-error" => some (.flag .stopOnError)
  | "--list-rules" => some (.flag .listRules)
  | "--rule" => some (.setting .rule)
  | "--format" => some (.setting .format)
  | "--config" => some (.setting .config)
  | "--max-passes" => some (.setting .maxPasses)
  | "--help" => some .help
  | "--version" => some .version
  | _ => none

def shortOption? : Char → Option Switch
  | 'v' => some (.flag .verbose)
  | 'r' => some (.setting .rule)
  | 'h' => some .help
  | 'V' => some .version
  | _ => none

namespace Args

def hasFlag (args : Args) : Flag → Bool
  | .check => args.check
  | .fix => args.fix
  | .verbose => args.verbose
  | .json => args.json
  | .noConfig => args.noConfig
  | .stopOnError => args.stopOnError
  | .listRules => args.listRules

def setFlag (args : Args) (flag : Flag) : Except UsageError Args :=
  if args.hasFlag flag then .error (.repeated flag.name)
  else
    .ok <| match flag with
      | .check => { args with check := true }
      | .fix => { args with fix := true }
      | .verbose => { args with verbose := true }
      | .json => { args with json := true }
      | .noConfig => { args with noConfig := true }
      | .stopOnError => { args with stopOnError := true }
      | .listRules => { args with listRules := true }

-- A number of passes: decimal digits, perhaps after a plus sign, from one to the largest number of
-- 32 bits.
def passes? (text : String) : Option Nat :=
  let digits := match text.toList with
    | '+' :: rest => rest
    | cs => cs
  if digits.isEmpty || !digits.all Char.isDigit then none
  else
    let value := digits.foldl (fun value c => 10 * value + (c.toNat - '0'.toNat)) 0
    if 1 ≤ value ∧ value < UInt32.size then some value else none

def fresh {α : Type} (setting : Setting) (former : Option α) (args : Args) :
    Except UsageError Args :=
  if former.isSome then .error (.repeated setting.name) else .ok args

def set (args : Args) (setting : Setting) (value : String) : Except UsageError Args :=
  match setting with
  | .rule => .ok { args with rules := args.rules ++ [value] }
  | .format => fresh setting args.format { args with format := some value }
  | .config =>
      if value = "" then .error (.invalidValue setting.name value)
      else fresh setting args.config { args with config := some value }
  | .maxPasses =>
      match passes? value with
      | some passes => fresh setting args.maxPasses { args with maxPasses := some passes }
      | none => .error (.invalidValue setting.name value)

def addPath (args : Args) (path : String) : Except UsageError Args :=
  if path = "" then .error (.invalidValue "[PATHS]..." path)
  else .ok { args with paths := args.paths ++ [path] }

def addPaths (args : Args) (paths : List String) : Except UsageError Args :=
  paths.foldlM addPath args

-- Refuse options that exclude each other, and a run over nothing.
def checked (args : Args) : Except UsageError Args :=
  if args.check ∧ args.fix then .error (.conflicting "--check" "--fix")
  else if args.json ∧ args.format.isSome then .error (.conflicting "--json" "--format")
  else if args.config.isSome ∧ args.noConfig then .error (.conflicting "--config" "--no-config")
  else if args.paths.isEmpty ∧ ¬ args.listRules then .error .missingPaths
  else .ok args

end Args

def isOption (argument : String) : Bool :=
  argument.startsWith "-" && argument != "-"

inductive Step where
  | continue (args : Args) (rest : List String)
  | answer (invocation : Invocation)

def takeValue (args : Args) (setting : Setting) (rest : List String) : Except UsageError Step :=
  match rest with
  | value :: rest =>
      if isOption value then .error (.missingValue setting.name)
      else do return .continue (← args.set setting value) rest
  | [] => .error (.missingValue setting.name)

def longStep (args : Args) (argument : String) (rest : List String) : Except UsageError Step :=
  let title := String.ofList (argument.toList.takeWhile (· != '='))
  let value := match argument.toList.dropWhile (· != '=') with
    | _ :: value => some (String.ofList value)
    | [] => none
  match longOption? title, value with
  | none, _ => .error (.unexpected argument)
  | some (.flag flag), none => do return .continue (← args.setFlag flag) rest
  | some (.setting setting), some value => do return .continue (← args.set setting value) rest
  | some (.setting setting), none => takeValue args setting rest
  | some .help, none => .ok (.answer .help)
  | some .version, none => .ok (.answer .version)
  | some _, some _ => .error (.unexpectedValue title)

-- Options with one hyphen, joined. An option with a value takes all that is left.
def shortStep (args : Args) : List Char → List String → Except UsageError Step
  | [], rest => .ok (.continue args rest)
  | c :: cs, rest =>
      match shortOption? c with
      | none => .error (.unexpected (String.ofList ['-', c]))
      | some (.flag flag) => do shortStep (← args.setFlag flag) cs rest
      | some .help => .ok (.answer .help)
      | some .version => .ok (.answer .version)
      | some (.setting setting) =>
          match cs with
          | [] => takeValue args setting rest
          | '=' :: value => do
              return .continue (← args.set setting (String.ofList value)) rest
          | value => do return .continue (← args.set setting (String.ofList value)) rest

def readFrom : Nat → Args → List String → Except UsageError Invocation
  | _, args, [] => do return .run (← args.checked)
  | 0, _, argument :: _ => .error (.unexpected argument)
  | steps + 1, args, argument :: rest => do
      if argument = "--" then return .run (← (← args.addPaths rest).checked)
      let step ←
        if argument.startsWith "--" then longStep args argument rest
        else if isOption argument then shortStep args (argument.toList.drop 1) rest
        else do pure (.continue (← args.addPath argument) rest)
      match step with
      | .continue args rest => readFrom steps args rest
      | .answer invocation => return invocation

def Invocation.parse (arguments : List String) : Except UsageError Invocation :=
  readFrom arguments.length {} arguments

end Codemod.Cli
