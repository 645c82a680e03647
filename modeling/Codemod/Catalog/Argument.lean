import Codemod.Catalog.Call

/-!
Rules about the argument at a position: taking it away, and naming the method after it.
-/

namespace Codemod

def Tree.trimmedText? (tree : Tree) (id : NodeId) : Option String :=
  (tree.text? id).map Text.trim

/-- Without a value only a last argument is removed; with one, the argument that is it. -/
structure RemoveArgument where
  target : CallTarget
  position : Nat
  value : Option String

namespace RemoveArgument

def hasValue (tree : Tree) (id : NodeId) (expected : String) : Except Crash Bool := do
  let standsFor ← tree.stringValue id
  return tree.trimmedText? id == some (Text.trim expected) || standsFor == some expected

def argument? (config : RemoveArgument) (tree : Tree) (call : NodeId) :
    Except Crash (Option NodeId) :=
  if config.target.accepts tree call then
    match (tree.arguments call)[config.position]?, config.value with
    | none, _ => .ok none
    | some argument, none =>
        .ok (if (tree.arguments call).length = config.position + 1 then some argument else none)
    | some argument, some expected =>
        match tree.positionalValue? call config.position with
        | none => .ok none
        | some value => do
            return if ← hasValue tree value expected then some argument else none
  else .ok none

def apply (config : RemoveArgument) (call : NodeId) : RuleStep Verdict := do
  if let some argument ← RuleStep.ofQuery fun tree => config.argument? tree call then
    Edit.remove argument
  return .unchanged

def rule (config : RemoveArgument) : Rule where
  id := "remove_argument"
  description := "Remove an argument of matching function or method calls"
  kinds := CallTarget.kinds
  accepts tree call _ := (config.argument? tree call).map Option.isSome
  apply call _ := config.apply call

def ofParams (params : Params) : Except SpecError RemoveArgument := do
  let target ← CallTarget.ofParams params
  let position ← params.requirePosition "position"
  let value ← params.string? "value"
  return { target, position, value }

end RemoveArgument

/-- The value of an argument decides the new name of the method; of the arguments only the first
`keep` stay. -/
structure RenameMethodByArgument where
  method : String
  position : Nat
  /-- Method names by value. -/
  values : List (String × String)
  default : Option String
  keep : Option Nat

namespace RenameMethodByArgument

-- Method name for a value, by the string it stands for or else by how it reads.
def byValue (config : RenameMethodByArgument) (tree : Tree) (value : NodeId) :
    Except Crash (Option String) := do
  let standsFor ← tree.stringValue value
  match standsFor.bind (config.values.lookup ·) with
  | some title => return some title
  | none => return (tree.trimmedText? value).bind (config.values.lookup ·)

def newName (config : RenameMethodByArgument) (tree : Tree) (call : NodeId) :
    Except Crash (Option String) := do
  let title ← match tree.positionalValue? call config.position with
    | some value => config.byValue tree value
    | none => pure none
  return title.or config.default

-- What a call needs: a new name, and arguments to drop.
structure Plan where
  rename : Option String
  dropped : List NodeId

def planFor (config : RenameMethodByArgument) (tree : Tree) (call : NodeId) (newName : String) :
    Option Plan :=
  let rename := match tree.callName? call with
    | some title => if title = newName then none else some newName
    | none => none
  let dropped := match config.keep with
    | some keep => (tree.arguments call).drop keep
    | none => []
  if rename.isSome || !dropped.isEmpty then some { rename, dropped } else none

def plan (config : RenameMethodByArgument) (tree : Tree) (call : NodeId) :
    Except Crash (Option Plan) := do
  if (CallTarget.method config.method).accepts tree call then
    return (← config.newName tree call).bind (config.planFor tree call)
  else return none

def apply (config : RenameMethodByArgument) (call : NodeId) : RuleStep Verdict := do
  if let some plan ← RuleStep.ofQuery fun tree => config.plan tree call then
    for argument in plan.dropped do
      Edit.remove argument
    if let some newName := plan.rename then
      Edit.renameCall call newName
  return .unchanged

def rule (config : RenameMethodByArgument) : Rule where
  id := "rename_method_by_argument"
  description := "Rename a method call by the value of one of its arguments"
  kinds := [.methodCall, .staticCall]
  accepts tree call _ := (config.plan tree call).map Option.isSome
  apply call _ := config.apply call

def ofParams (params : Params) : Except SpecError RenameMethodByArgument := do
  let method ← params.requireString "method"
  let position ← params.requirePosition "position"
  let values ← params.requireMap "values"
  let default ← params.string? "default"
  if default.any Text.allBlank then params.invalid "default" .empty
  let keep ← params.position? "keep"
  return { method, position, values, default, keep }

end RenameMethodByArgument

end Codemod
