import Codemod.Text.Position

/-!
What a run reports: applications of rules, and diagnostics of what went wrong.
-/

namespace Codemod

inductive Severity where
  | error
  | warning
deriving DecidableEq, Repr

def Severity.word : Severity → String
  | .error => "error"
  | .warning => "warning"

inductive DiagnosticKind where
  | syntaxError
  | invalidRemoval
  | ruleApplicationError
  | nonConvergence
  | cascadeLimit
  | printError
  | cancelled
deriving DecidableEq, Repr

namespace DiagnosticKind

def severity : DiagnosticKind → Severity
  | .syntaxError | .invalidRemoval | .ruleApplicationError | .printError => .error
  | .nonConvergence | .cascadeLimit | .cancelled => .warning

def title : DiagnosticKind → String
  | .syntaxError => "syntax error"
  | .invalidRemoval => "invalid removal"
  | .ruleApplicationError => "rule error"
  | .nonConvergence => "non-convergence"
  | .cascadeLimit => "cascade limit"
  | .printError => "print error"
  | .cancelled => "cancelled"

def word : DiagnosticKind → String
  | .syntaxError => "syntax_error"
  | .invalidRemoval => "invalid_removal"
  | .ruleApplicationError => "rule_application_error"
  | .nonConvergence => "non_convergence"
  | .cascadeLimit => "cascade_limit"
  | .printError => "print_error"
  | .cancelled => "cancelled"

end DiagnosticKind

structure Diagnostic where
  kind : DiagnosticKind
  message : String
  ruleId : Option String := none
  position : Option Position := none
deriving DecidableEq, Repr

namespace Diagnostic

def severity (diagnostic : Diagnostic) : Severity :=
  diagnostic.kind.severity

def isError (diagnostic : Diagnostic) : Bool :=
  diagnostic.severity == .error

def render (diagnostic : Diagnostic) : String :=
  let place := match diagnostic.position with
    | some position => position.render ++ ": "
    | none => ""
  let rule := match diagnostic.ruleId with
    | some id => " [" ++ id ++ "]"
    | none => ""
  place ++ diagnostic.kind.title ++ ": " ++ diagnostic.message ++ rule

end Diagnostic

structure Application where
  ruleId : String
  position : Option Position := none
deriving DecidableEq, Repr

end Codemod
