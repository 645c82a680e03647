import Codemod.Diagnostic
import Codemod.Rule

/-!
Running rules to a fixed point. A pass walks the whole tree and offers every node to the rules in
order; each application is a transaction, so a rule that fails leaves no trace. Passes repeat
until one changes nothing or their number is used up.
-/

namespace Codemod

structure Log where
  applications : List Application := []
  diagnostics : List Diagnostic := []

namespace Log

def report (log : Log) (diagnostic : Diagnostic) : Log :=
  { log with diagnostics := log.diagnostics ++ [diagnostic] }

def applied (log : Log) (application : Application) : Log :=
  { log with applications := log.applications ++ [application] }

end Log

def Crash.message (crash : Crash) : String :=
  match crash.text with
  | some text => s!"rule panicked: {text}"
  | none => "rule panicked"

def Failure.message : Failure → String
  | .error reason => reason.text
  | .crash reason => reason.message

namespace Pass

def check (tree : Tree) (verdict : Verdict) (node : NodeId) (link : Option Link) :
    Except RuleError Unit :=
  let slot := link.map Link.slot
  let arity := slot.map Slot.arity
  match verdict with
  | .unchanged => .ok ()
  | .deleted =>
      if arity = some .list ∨ arity = some .optional then .ok ()
      else .error (.tree (.invalidRemoval node slot))
  | .inserted nodes =>
      if arity ≠ some .list then .error (.tree (.invalidRemoval node slot))
      else if nodes.all tree.contains then .ok ()
      else .error (.message "inserted node does not exist")
  | .replaced new =>
      if tree.contains new then .ok ()
      else .error (.message s!"replacement {new.render} does not exist")

def attempt (rule : Rule) (node : NodeId) (context : Context) : RuleStep (Option Verdict) := do
  match rule.accepts (← get) node context with
  | .error crash => throw (.crash crash)
  | .ok false => return none
  | .ok true => return some (← rule.apply node context)

-- Try one rule in a transaction. What it does is reported at the anchor.
def applyRule (rule : Rule) (context : Context) (node : NodeId) (link : Option Link)
    (anchor : Option Span) (tree : Tree) (log : Log) : Verdict × Tree × Log :=
  let report (kind : DiagnosticKind) (message : String) : Log :=
    let position := tree.positionOf anchor
    log.report { kind, message, ruleId := some rule.id, position }
  let (result, edited) := (attempt rule node context).run tree.checkpoint
  match result with
  | .error failure =>
      (.unchanged, edited.rollback, report .ruleApplicationError failure.message)
  | .ok none => (.unchanged, edited.commit, log)
  | .ok (some verdict) =>
      match check edited verdict node link with
      | .error error =>
          let kind := match error with
            | .tree _ => DiagnosticKind.invalidRemoval
            | _ => .ruleApplicationError
          (.unchanged, edited.rollback, report kind error.text)
      | .ok () =>
          let log :=
            if edited.revision ≠ tree.revision ∨ verdict ≠ .unchanged then
              log.applied ⟨rule.id, tree.positionOf anchor⟩
            else log
          (verdict, edited.commit, log)

/-- Offer a node to the rules in order. A replacement is what later rules see; a node that is
deleted or spread over a list is offered no further. -/
def offer (context : Context) (link : Option Link) (anchor : Option Span) :
    List Rule → NodeId → Verdict → Tree → Log → Verdict × Tree × Log
  | [], _, verdict, tree, log => (verdict, tree, log)
  | rule :: rest, current, verdict, tree, log =>
      if (tree.kind? current).any rule.kinds.contains then
        match applyRule rule context current link anchor tree log with
        | (.unchanged, tree, log) => offer context link anchor rest current verdict tree log
        | (.replaced new, tree, log) =>
            if new = current then offer context link anchor rest current verdict tree log
            else offer context link anchor rest new (.replaced new) tree log
        | (ended, tree, log) => (ended, tree, log)
      else offer context link anchor rest current verdict tree log

def visitor (rules : List Rule) (context : Context) : Visitor Log := fun node => do
  let walk ← get
  let tree := walk.tree
  let (verdict, tree, log) :=
    offer context (tree.parent? node) (tree.anchor? node) rules node .unchanged tree walk.state
  set { walk with tree, state := log }
  return verdict

def walkDiagnostics (walk : Walk Log) : List Diagnostic :=
  let errors := walk.errors.map fun (node, error) =>
    let kind := match error with
      | .invalidRemoval .. | .notAList .. => DiagnosticKind.invalidRemoval
      | _ => .ruleApplicationError
    { kind, message := error.message, position := walk.tree.position? node : Diagnostic }
  let limited := walk.cascadeLimited.map fun node =>
    { kind := .cascadeLimit
      message := s!"replacement re-entered {Walk.cascadeLimit} times; node left as is"
      position := walk.tree.position? node : Diagnostic }
  errors ++ limited

end Pass

structure RunOptions where
  /-- Passes at most; one is always made. -/
  maxPasses : Nat := 10
  /-- Steps that a walk may take in depth. -/
  steps : Nat := 1000000
deriving DecidableEq, Repr

structure RunOutcome where
  /-- Passes made, the confirming one included. -/
  passes : Nat := 0
  /-- Passes that changed the tree. -/
  editingPasses : Nat := 0
  converged : Bool := false
  log : Log := {}

namespace Run

def passes (rules : List Rule) (steps : Nat) (context : Context) :
    Nat → RunOutcome → Tree → Except Stop RunOutcome × Tree
  | 0, outcome, tree => (.ok outcome, tree)
  | left + 1, outcome, tree =>
      match Walk.run (Pass.visitor rules context) steps tree outcome.log tree.root with
      | (.error stop, walk) => (.error stop, walk.tree)
      | (.ok (), walk) =>
          let log := (Pass.walkDiagnostics walk).foldl Log.report walk.state
          let outcome := { outcome with passes := outcome.passes + 1, log }
          if walk.tree.revision = tree.revision then
            (.ok { outcome with converged := true }, walk.tree)
          else
            passes rules steps context left
              { outcome with editingPasses := outcome.editingPasses + 1 } walk.tree

/-- Apply rules until the tree stays as it is or the passes are used up. -/
def run (rules : List Rule) (options : RunOptions) (context : Context) (tree : Tree) :
    Except Stop RunOutcome × Tree :=
  match passes rules options.steps context (max options.maxPasses 1) {} tree with
  | (.error stop, tree) => (.error stop, tree)
  | (.ok outcome, tree) =>
      if outcome.converged then (.ok outcome, tree)
      else
        let diagnostic : Diagnostic :=
          { kind := .nonConvergence
            message := s!"tree still changing after {outcome.passes} passes" }
        (.ok { outcome with log := outcome.log.report diagnostic }, tree)

end Run

end Codemod
