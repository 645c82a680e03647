import Codemod.Symbols
import Codemod.Traversal

/-!
Rules: where they apply, and what they do there. A rule works on the tree it is handed and may
fail with an error or crash; either way the caller gets the partly edited tree back.
-/

namespace Codemod

inductive RuleError where
  | message (text : String)
  | unexpectedShape (expected : String) (found : Kind)
  | tree (error : TreeError)
deriving DecidableEq, Repr

def RuleError.text : RuleError → String
  | .message text => text
  | .unexpectedShape expected found => s!"unexpected {found.label} node, expected {expected}"
  | .tree error => error.message

inductive Failure where
  | error (error : RuleError)
  | crash (crash : Crash)
deriving DecidableEq, Repr

abbrev RuleStep (α : Type) := ExceptT Failure (StateM Tree) α

def RuleStep.ofEdit {α : Type} (edit : Edit α) : RuleStep α := do
  let (result, tree) := edit.run (← get)
  set tree
  match result with
  | .ok value => return value
  | .error (.rejected error) => throw (.error (.tree error))
  | .error (.missing size index) => throw (.crash (.ofMissing size index))

instance : MonadLift Edit RuleStep where
  monadLift := RuleStep.ofEdit

def RuleStep.ofQuery {α : Type} (query : Tree → Except Crash α) : RuleStep α := do
  match query (← get) with
  | .ok value => return value
  | .error crash => throw (.crash crash)

-- A child that a rule needs; a node without it has not the shape that was expected.
def RuleStep.requireChild (id : NodeId) (slot : Slot) (expected : String) : RuleStep NodeId := do
  let tree ← get
  match tree.child? id slot, tree.kind? id with
  | some child, _ => return child
  | none, some found => throw (.error (.unexpectedShape expected found))
  | none, none => throw (.crash (.ofMissing tree.size id.index))

structure Context where
  symbols : Symbols := {}
  unitId : String := ""

structure Rule where
  id : String
  description : String
  /-- Kinds of nodes the rule is offered. -/
  kinds : List Kind
  accepts : Tree → NodeId → Context → Except Crash Bool
  apply : NodeId → Context → RuleStep Verdict

end Codemod
