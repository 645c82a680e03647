import Codemod.Batch
import Codemod.Cli.Args
import Codemod.Cli.Report
import Codemod.Config
import Codemod.Disk

/-!
The program on a disk: what a command line prints, which files it writes, and how it ends. Files
are read before any of them is written.
-/

namespace Codemod.Cli

structure Output where
  exit : Nat := 0
  stdout : String := ""
  stderr : String := ""
  /-- Paths with their new texts, in the order of writing. -/
  writes : List (String × String) := []
deriving DecidableEq, Repr

def Output.failure (reason : String) : Output :=
  { exit := 1, stderr := s!"Error: {reason}\n" }

def configFile : String := ".rectify.toml"

def usage : String := "Usage: rectify [OPTIONS] [PATHS]..."

def helpText : String := unlines
  ["Configurable, format-preserving PHP refactoring",
    "",
    usage,
    "",
    "Arguments:",
    "  [PATHS]...  Files or directories to process",
    "",
    "Options:",
    "      --check            Report pending changes without writing them (default mode)",
    "      --fix              Write changes to files",
    "  -v, --verbose          Show verbose output and debug logs",
    "  -r, --rule <RULE>      Rules to run, in order (can be specified multiple times). "
      ++ "Overrides config",
    "                         file",
    "      --format <FORMAT>  Output format: text, json, diff",
    "      --json             Shorthand for --format json",
    "      --config <PATH>    Path to config file (default: auto-detect .rectify.toml)",
    "      --no-config        Ignore config files",
    "      --max-passes <N>   Maximum rule passes per file",
    "      --stop-on-error    Skip remaining files after the first file with an error",
    "      --list-rules       List available rules and exit",
    "  -h, --help             Print help",
    "  -V, --version          Print version"]

def ruleListing : String :=
  unlines ("Available rules:" :: Catalog.entries.map fun entry =>
    s!"  {entry.id} - {entry.description}")

def readConfig (disk : Disk) (path : String) : Except String Config :=
  match disk.read path with
  | .error reason => .error s!"Failed to read {path}: {reason}"
  | .ok text =>
      match Config.parse? text with
      | some config => .ok config
      | none => .error s!"Failed to parse {path}"

/-- The configuration and where it came from: the file asked for, else the nearest one. -/
def loadConfig (disk : Disk) (args : Args) : Except String (Config × Option String) := do
  if args.noConfig then return ({}, none)
  match args.config with
  | some path => return (← readConfig disk path, some path)
  | none =>
      match disk.nearest? configFile with
      | some place =>
          let path := disk.absolute place
          return (← readConfig disk path, some path)
      | none => return ({}, none)

def outputFormat (args : Args) (config : Config) : Except String OutputFormat :=
  if args.json then .ok .json
  else
    let name := (args.format.or config.format).getD "text"
    match OutputFormat.ofName? name with
    | some format => .ok format
    | none => .error s!"Invalid output format '{name}'. Valid options: text, json, diff"

def chooseRules (args : Args) (config : Config) : Except String (List Rule) :=
  match args.rules.find? fun id => !Catalog.contains id with
  | some id => .error s!"Unknown rule '{id}'. Use --list-rules to see available rules."
  | none =>
      match config.effectiveRules args.rules with
      | [] => .error s!"No rules enabled. Add [[rules]] to {configFile} or pass --rule."
      | specs =>
          match Catalog.build specs with
          | .ok rules => .ok rules
          | .error error => .error s!"Invalid rule configuration: {error.message}"

structure Job where
  config : Config
  configPath : Option String
  rules : List Rule
  report : ReportOptions
  engine : EngineOptions

def prepare (disk : Disk) (args : Args) (steps : Nat) : Except String Job := do
  let (config, configPath) ← loadConfig disk args
  let format ← outputFormat args config
  let rules ← chooseRules args config
  return {
    config, configPath, rules
    report := { format, verbose := args.verbose, check := !args.fix }
    engine := config.engineOptions args.maxPasses args.stopOnError steps }

structure FileSet where
  files : List String := []
  missing : List String := []

def isSourceName (path : String) : Bool :=
  (Config.fileName? path).any fun name => name.endsWith ".php" && name != ".php"

/-- Files under a path. A file that is named is taken whatever it is called; a directory must be
listed down to its last file. -/
def collect (disk : Disk) (config : Config) (path : String) : Except String FileSet :=
  match disk.find path with
  | .file _ => .ok { files := [path].filter fun file => !config.excludes file }
  | .directory place =>
      match disk.walk path place with
      | .ok files =>
          .ok { files := files.filter fun file => isSourceName file && !config.excludes file }
      | .error reason => .error s!"Failed to walk {path}: {reason}"
  | _ => .ok { missing := [path] }

def collectAll (disk : Disk) (config : Config) (paths : List String) : Except String FileSet := do
  let sets ← paths.mapM (collect disk config)
  return { files := sets.flatMap FileSet.files, missing := sets.flatMap FileSet.missing }

def readUnits (disk : Disk) : List String → List SourceUnit × List FileResult
  | [] => ([], [])
  | path :: rest =>
      let (units, failures) := readUnits disk rest
      match disk.read path with
      | .ok source => (⟨path, source⟩ :: units, failures)
      | .error reason => (units, .failed path s!"Failed to read file: {path}: {reason}" :: failures)

def Job.preamble (job : Job) : String :=
  if job.report.verbose ∧ job.report.format = .text then
    let mode := if job.report.check then "check" else "fix"
    let ids := String.intercalate ", " (job.rules.map Rule.id)
    let origin := match job.configPath with
      | some path => [s!"Using config: {path}"]
      | none => []
    unlines (origin ++ [s!"Mode: {mode}", s!"Rules: {ids}", ""])
  else ""

def missingWarnings (options : ReportOptions) (missing : List String) : String :=
  match options.format with
  | .text => unlines (missing.map fun path => s!"Warning: Path does not exist: {path}")
  | _ => ""

def Job.writes (job : Job) (outcome : UnitOutcome) : Bool :=
  !job.report.check && outcome.changed

def Job.result (job : Job) (disk : Disk) (unit : SourceUnit) (outcome : UnitOutcome) :
    FileResult :=
  match job.writes outcome, disk.refusals.lookup unit.id with
  | true, some reason => .failed unit.id s!"Failed to write file: {unit.id}: {reason}"
  | _, _ => .processed unit.id unit.source outcome

def Job.conclude (job : Job) (disk : Disk) (set : FileSet) (outcomes : List UnitOutcome) : Output :=
  let (units, failures) := readUnits disk set.files
  let processed := units.zip outcomes
  let results := failures ++ processed.map fun (unit, outcome) => job.result disk unit outcome
  { exit := exitCode job.report results
    stdout := job.preamble ++ reportOutput job.report results
    stderr := missingWarnings job.report set.missing ++ reportComplaints job.report results
    writes := (processed.filter fun entry => job.writes entry.2).map fun (unit, outcome) =>
      (unit.id, outcome.output) }

def Job.run (job : Job) (disk : Disk) (paths : List String) : Output :=
  match collectAll disk job.config paths with
  | .error reason => { Output.failure reason with stdout := job.preamble }
  | .ok set =>
      match Batch.process job.rules job.engine job.config.symbols false
          (readUnits disk set.files).1 with
      | .error _ =>
          { exit := 101, stdout := job.preamble, stderr := missingWarnings job.report set.missing }
      | .ok (outcomes, _) => job.conclude disk set outcomes

-- Steps for the walks of a run, as long as no others are asked for.
def usualSteps : Nat := ({} : RunOptions).steps

def execute (disk : Disk) (args : Args) (steps : Nat) : Output :=
  if args.listRules then { stdout := ruleListing }
  else
    match prepare disk args steps with
    | .error reason => .failure reason
    | .ok job => job.run disk args.paths

def run (disk : Disk) (arguments : List String) (steps : Nat := usualSteps) : Output :=
  match Invocation.parse arguments with
  | .ok (.run args) => execute disk args steps
  | .ok .help => { stdout := helpText }
  | .ok .version => { stdout := s!"rectify {version}\n" }
  | .error error =>
      { exit := 2
        stderr := s!"error: {error.message}\n\n{usage}\n\nFor more information, try '--help'.\n" }

end Codemod.Cli
