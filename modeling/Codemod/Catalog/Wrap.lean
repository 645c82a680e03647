import Codemod.Catalog.Call

/-!
Wrapping arguments of methods in new objects of a class. Items of an array are wrapped one by one,
with their keys; otherwise the first one or two arguments become one. What is wrapped already is
left alone.
-/

namespace Codemod

structure WrapArguments where
  /-- New method names by method; an empty one keeps the name. -/
  methods : NameTable
  /-- The class as it is written at its use. -/
  className : String

namespace WrapArguments

inductive Contents where
  | nothing
  | items (items : List NodeId)
  | values (values : List NodeId)
deriving DecidableEq, Repr

structure Plan where
  rename : Option String
  contents : Contents

def isWrapped (config : WrapArguments) (tree : Tree) (value : NodeId) : Bool :=
  tree.kind? value == some .new
    && (tree.instantiatedClass? value).any fun className => Name.same className config.className

def needsWrap (config : WrapArguments) (tree : Tree) (item : NodeId) : Bool :=
  match tree.shape? item with
  | some (.arrayItem _ value false) => !config.isWrapped tree value
  | _ => false

def contents (config : WrapArguments) (tree : Tree) (call : NodeId) : Contents :=
  match tree.positionalValue? call 0 with
  | none => .nothing
  | some first =>
      match tree.shape? first with
      | some (.array items _) =>
          match items.filter (config.needsWrap tree) with
          | [] => .nothing
          | left => .items left
      | _ =>
          if config.isWrapped tree first then .nothing
          else .values (first :: (tree.positionalValue? call 1).toList)

def plan (config : WrapArguments) (tree : Tree) (call : NodeId) : Option Plan := do
  let title ← tree.callName? call
  let newName ← config.methods.find? title
  let rename := if newName ≠ "" ∧ newName ≠ title then some newName else none
  let contents := config.contents tree call
  if rename.isSome ∨ contents ≠ .nothing then some { rename, contents } else none

def wrapped (config : WrapArguments) (values : List NodeId) : Edit NodeId := do
  let arguments ← Edit.argumentsOf values
  Edit.newInstance config.className (some arguments)

def wrapItem (config : WrapArguments) (item : NodeId) : RuleStep Unit := do
  let key := (← get).child? item .key
  let value ← RuleStep.requireChild item .value "array item"
  let object ← config.wrapped (key.toList ++ [value])
  let new ← Edit.arrayItem none object
  Edit.replaceAt ((← get).parent? item) item new

def wrapValues (config : WrapArguments) (call : NodeId) (values : List NodeId) :
    RuleStep Unit := do
  let old ← RuleStep.requireChild call .arguments "method call"
  let object ← config.wrapped values
  let new ← Edit.argumentsOf [object]
  Edit.replaceAt (some ⟨call, .arguments⟩) old new

def apply (config : WrapArguments) (call : NodeId) : RuleStep Verdict := do
  let tree ← get
  if let some plan := config.plan tree call then
    if let some newName := plan.rename then
      if let some method := tree.child? call .method then
        Edit.setName method newName
    match plan.contents with
    | .nothing => pure ()
    | .items items => items.forM config.wrapItem
    | .values values => config.wrapValues call values
  return .unchanged

def rule (config : WrapArguments) : Rule where
  id := "wrap_arguments"
  description := "Wrap method arguments in value objects, optionally renaming the method"
  kinds := [.methodCall]
  accepts tree call _ := .ok (config.plan tree call).isSome
  apply call _ := config.apply call

def ofParams (params : Params) : Except SpecError WrapArguments := do
  let className ← params.requireString "class"
  let methods ← params.requireNames "methods"
  return { methods, className := Name.reference className }

end WrapArguments

end Codemod
