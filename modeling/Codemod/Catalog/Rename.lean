import Codemod.Catalog.Call

/-!
Rules that rename by a table: function calls, method calls, and classes used as types. A name that
the table leaves as it is spelled is left alone.
-/

namespace Codemod

structure RenameFunction where
  mappings : NameTable

namespace RenameFunction

-- New name of a call; leading separators of the call are kept.
def target? (config : RenameFunction) (tree : Tree) (call : NodeId) : Option String := do
  let title ← tree.callName? call
  let newName ← config.mappings.find? title
  let renamed :=
    if Name.isQualified title && !Name.isQualified newName then "\\" ++ newName else newName
  if renamed = title then none else some renamed

def apply (config : RenameFunction) (call : NodeId) : RuleStep Verdict := do
  if let some renamed := config.target? (← get) call then
    let callee ← RuleStep.requireChild call .callee "function call"
    Edit.setName callee renamed
  return .unchanged

def rule (config : RenameFunction) : Rule where
  id := "rename_function"
  description := "Rename function calls based on configurable mapping"
  kinds := [.functionCall]
  accepts tree call _ := .ok (config.target? tree call).isSome
  apply call _ := config.apply call

def ofParams (params : Params) : Except SpecError RenameFunction := do
  return ⟨← params.requireNameTable "mappings"⟩

end RenameFunction

structure RenameMethod where
  mappings : NameTable

namespace RenameMethod

def target? (config : RenameMethod) (tree : Tree) (call : NodeId) : Option String := do
  let title ← tree.callName? call
  let newName ← config.mappings.find? title
  if newName = title then none else some newName

def apply (config : RenameMethod) (call : NodeId) : RuleStep Verdict := do
  let tree ← get
  if let some renamed := config.target? tree call then
    if let some method := tree.child? call .method then
      Edit.setName method renamed
  return .unchanged

def rule (config : RenameMethod) : Rule where
  id := "rename_method"
  description := "Rename method calls based on configurable mapping"
  kinds := [.methodCall]
  accepts tree call _ := .ok (config.target? tree call).isSome
  apply call _ := config.apply call

def ofParams (params : Params) : Except SpecError RenameMethod := do
  return ⟨← params.requireNameTable "mappings"⟩

end RenameMethod

/-- Whether a node stands in the type of a parameter or of a result, for types nested to the given
depth. Functions and closures keep the type of their result as a bare part; their last part is
the body. -/
def Tree.inTypePosition (tree : Tree) : Nat → NodeId → Bool
  | 0, _ => false
  | depth + 1, id =>
      match tree.parent? id with
      | none => false
      | some link =>
          match link.slot with
          | .type | .returnType => true
          | .part =>
              match tree.shape? link.parent with
              | some (.verbatim label parts) =>
                  if label = "type" then tree.inTypePosition depth link.parent
                  else
                    ["function", "closure", "arrow_function"].contains label
                      && parts.getLast? != some id
              | _ => false
          | _ => false

structure RenameType where
  mappings : NameTable

namespace RenameType

def target? (config : RenameType) (tree : Tree) (id : NodeId) : Option String := do
  let title ← tree.nameOf? id
  let newName := Name.reference (← config.mappings.find? title)
  if newName ≠ title ∧ tree.inTypePosition tree.size id then some newName else none

def apply (config : RenameType) (id : NodeId) : RuleStep Verdict := do
  if let some renamed := config.target? (← get) id then
    Edit.setName id renamed
  return .unchanged

def rule (config : RenameType) : Rule where
  id := "rename_type"
  description := "Rename classes used in parameter and return types"
  kinds := [.name]
  accepts tree id _ := .ok (config.target? tree id).isSome
  apply id _ := config.apply id

def ofParams (params : Params) : Except SpecError RenameType := do
  return ⟨← params.requireNameTable "mappings"⟩

end RenameType

end Codemod
