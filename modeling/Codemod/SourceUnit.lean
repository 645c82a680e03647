import Codemod.Run
import Codemod.Tree.Parse
import Codemod.Tree.Print

/-!
Reading, editing and printing one source unit. Where the source does not parse or the tree does
not print, the output is the source as it was.
-/

namespace Codemod

structure SourceUnit where
  id : String
  source : String
deriving DecidableEq, Repr

structure EngineOptions where
  run : RunOptions := {}
  print : PrintOptions := {}
  /-- Skip the rest of a batch after the first unit with an error. -/
  stopOnError : Bool := false
deriving DecidableEq, Repr

structure UnitOutcome where
  unitId : String
  output : String
  changed : Bool := false
  applications : List Application := []
  diagnostics : List Diagnostic := []
  passes : Nat := 0
  converged : Bool := false
  skipped : Bool := false
deriving DecidableEq, Repr

namespace UnitOutcome

def hasErrors (outcome : UnitOutcome) : Bool :=
  outcome.diagnostics.any Diagnostic.isError

def untouched (unit : SourceUnit) (diagnostic : Diagnostic) : UnitOutcome :=
  { unitId := unit.id, output := unit.source, diagnostics := [diagnostic] }

def ofSkipped (unit : SourceUnit) : UnitOutcome :=
  { untouched unit { kind := .cancelled, message := "skipped after the batch was cancelled" } with
    skipped := true }

end UnitOutcome

namespace SourceUnit

/-- The text of a tree after a run, with a diagnostic where it does not print. A run that changed
nothing needs no printing. -/
def outputOf (unit : SourceUnit) (options : PrintOptions) (outcome : RunOutcome) (tree : Tree) :
    String × List Diagnostic :=
  if outcome.editingPasses = 0 then (unit.source, [])
  else
    match tree.print options with
    | .ok output => (output, [])
    | .error error => (unit.source, [{ kind := .printError, message := error.message }])

def process (unit : SourceUnit) (rules : List Rule) (options : EngineOptions) (symbols : Symbols) :
    Except Stop UnitOutcome :=
  match Tree.parse unit.source with
  | .error error =>
      .ok (.untouched unit
        { kind := .syntaxError, message := error.message, position := some error.position })
  | .ok tree =>
      match Run.run rules options.run { symbols, unitId := unit.id } tree with
      | (.error stop, _) => .error stop
      | (.ok outcome, tree) =>
          let (output, failed) := unit.outputOf options.print outcome tree
          .ok
            { unitId := unit.id
              output
              changed := output != unit.source
              applications := outcome.log.applications
              diagnostics := outcome.log.diagnostics ++ failed
              passes := outcome.passes
              converged := outcome.converged }

end SourceUnit

end Codemod
