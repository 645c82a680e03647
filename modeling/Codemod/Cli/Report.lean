import Codemod.Diff.Unified
import Codemod.SourceUnit
import Codemod.Text.JsonValue

/-!
Reports of processed files: as text for people, as JSON, or as a patch. Everything in a report
follows from the results of the files.
-/

namespace Codemod.Cli

inductive OutputFormat where
  | text
  | json
  | diff
deriving DecidableEq, Repr

def OutputFormat.name : OutputFormat → String
  | .text => "Text"
  | .json => "Json"
  | .diff => "Diff"

/-- The format of a name in any case. No letter outside ASCII has one of these names as its lower
case. -/
def OutputFormat.ofName? (name : String) : Option OutputFormat :=
  match Text.lower name with
  | "text" => some .text
  | "json" => some .json
  | "diff" => some .diff
  | _ => none

inductive FileResult where
  | processed (path source : String) (outcome : UnitOutcome)
  /-- The file could not be read or written. -/
  | failed (path reason : String)
deriving DecidableEq, Repr

structure Summary where
  filesProcessed : Nat
  filesWithChanges : Nat
  totalApplications : Nat
  errors : Nat
  warnings : Nat
  skipped : Nat
deriving DecidableEq, Repr

namespace FileResult

def changed : FileResult → Bool
  | .processed _ _ outcome => outcome.changed
  | .failed .. => false

def skipped : FileResult → Bool
  | .processed _ _ outcome => outcome.skipped
  | .failed .. => false

def applicationCount : FileResult → Nat
  | .processed _ _ outcome => if outcome.changed then outcome.applications.length else 0
  | .failed .. => 0

def errorCount : FileResult → Nat
  | .processed _ _ outcome => outcome.diagnostics.countP Diagnostic.isError
  | .failed .. => 1

def warningCount : FileResult → Nat
  | .processed _ _ outcome => outcome.diagnostics.countP fun d => !d.isError
  | .failed .. => 0

end FileResult

def total (count : FileResult → Nat) (results : List FileResult) : Nat :=
  results.foldr (fun result sum => count result + sum) 0

def Summary.of (results : List FileResult) : Summary where
  filesProcessed := results.length
  filesWithChanges := results.countP FileResult.changed
  totalApplications := total FileResult.applicationCount results
  errors := total FileResult.errorCount results
  warnings := total FileResult.warningCount results
  skipped := results.countP FileResult.skipped

structure ReportOptions where
  format : OutputFormat := .text
  verbose : Bool := false
  /-- Changes are shown, not made. -/
  check : Bool := true
deriving DecidableEq, Repr

def unlines (lines : List String) : String :=
  String.join (lines.map (· ++ "\n"))

def severityLabel : Severity → String
  | .error => "Error"
  | .warning => "Warning"

def changedLine (mark : Diff.Mark) (line : String) : String :=
  "  " ++ mark.sign ++ " "
    ++ String.ofList (Text.dropTrailing (· == '\n') line.toList)

def applicationLine (application : Application) : String :=
  match application.position with
  | some position => s!"  -> {application.ruleId} at {position.render}"
  | none => s!"  -> {application.ruleId}"

def changeLines (options : ReportOptions) (path source : String) (outcome : UnitOutcome) :
    List String :=
  if options.check then
    path :: (Diff.changedLines source outcome.output).map (fun (mark, line) =>
        changedLine mark line)
      ++ "" :: outcome.applications.map applicationLine ++ [""]
  else
    let count := outcome.applications.length
    [path, s!"  OK Applied {count} change(s) in {outcome.passes} pass(es)", ""]

def FileResult.output (options : ReportOptions) : FileResult → String
  | .failed .. => ""
  | .processed path source outcome =>
      match options.format, outcome.changed with
      | .text, true => unlines (changeLines options path source outcome)
      | .text, false => if options.verbose then s!"{path}: No changes needed\n" else ""
      | .diff, true => if options.check then Diff.unified path source outcome.output else ""
      | _, _ => ""

def FileResult.complaints (options : ReportOptions) (result : FileResult) : String :=
  match options.format, result with
  | .text, .failed path reason => s!"Error: {path} - {reason}\n"
  | .text, .processed path _ outcome =>
      if outcome.skipped && !options.verbose then ""
      else unlines (outcome.diagnostics.map fun d =>
        s!"{severityLabel d.severity}: {path}: {d.render}")
  | _, _ => ""

-- A count that is only mentioned when there is something to count.
def countLine (label : String) (count : Nat) : List String :=
  if 0 < count then [s!"  {label}: {count}"] else []

def Summary.lines (summary : Summary) (options : ReportOptions) : List String :=
  ["", "Summary", s!"  Files processed: {summary.filesProcessed}",
      s!"  Files with changes: {summary.filesWithChanges}",
      s!"  Rule applications: {summary.totalApplications}"]
    ++ countLine "Errors" summary.errors ++ countLine "Warnings" summary.warnings
    ++ countLine "Skipped" summary.skipped
    ++ (if options.check ∧ 0 < summary.filesWithChanges then
          ["", "Run with --fix to apply changes"]
        else [])

def version : String := "0.1.0"

def positionJson (position : Position) : JsonValue :=
  .object [("line", .number position.line), ("column", .number position.column),
    ("offset", .number position.offset)]

def optionalField {α : Type} (name : String) (value : α → JsonValue) :
    Option α → List (String × JsonValue)
  | some present => [(name, value present)]
  | none => []

def listField {α : Type} (name : String) (value : α → JsonValue) (items : List α) :
    List (String × JsonValue) :=
  if items.isEmpty then [] else [(name, .array (items.map value))]

def applicationJson (application : Application) : JsonValue :=
  .object (("rule_id", .string application.ruleId)
    :: optionalField "position" positionJson application.position)

def diagnosticJson (diagnostic : Diagnostic) : JsonValue :=
  .object ([("severity", .string diagnostic.severity.word), ("kind", .string diagnostic.kind.word),
      ("message", .string diagnostic.message)]
    ++ optionalField "rule_id" .string diagnostic.ruleId
    ++ optionalField "position" positionJson diagnostic.position)

def FileResult.json : FileResult → JsonValue
  | .processed path _ outcome =>
      .object ([("path", .string path), ("changed", .bool outcome.changed),
          ("passes", .number outcome.passes), ("converged", .bool outcome.converged)]
        ++ (if outcome.skipped then [("skipped", .bool true)] else [])
        ++ listField "applications" applicationJson outcome.applications
        ++ listField "diagnostics" diagnosticJson outcome.diagnostics)
  | .failed path reason =>
      .object [("path", .string path), ("changed", .bool false), ("passes", .number 0),
        ("converged", .bool false), ("error", .string reason)]

def Summary.json (summary : Summary) : JsonValue :=
  .object [("files_processed", .number summary.filesProcessed),
    ("files_with_changes", .number summary.filesWithChanges),
    ("total_applications", .number summary.totalApplications),
    ("errors", .number summary.errors), ("warnings", .number summary.warnings),
    ("skipped", .number summary.skipped)]

def reportJson (results : List FileResult) : JsonValue :=
  .object [("version", .string version), ("summary", (Summary.of results).json),
    ("files", .array (results.map FileResult.json))]

def closing (options : ReportOptions) (results : List FileResult) : String :=
  match options.format with
  | .text => unlines ((Summary.of results).lines options)
  | .json => (reportJson results).render ++ "\n"
  | .diff => ""

def reportOutput (options : ReportOptions) (results : List FileResult) : String :=
  String.join (results.map (FileResult.output options)) ++ closing options results

def reportComplaints (options : ReportOptions) (results : List FileResult) : String :=
  String.join (results.map (FileResult.complaints options))

-- Errors first, then changes that are still to be made.
def exitCode (options : ReportOptions) (results : List FileResult) : Nat :=
  let summary := Summary.of results
  if 0 < summary.errors then 1
  else if options.check ∧ 0 < summary.filesWithChanges then 2
  else 0

end Codemod.Cli
