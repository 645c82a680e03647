import Codemod.Catalog.Call

/-!
Rules about builder chains: starting one in place of a constructor with arguments, and flattening
one that is passed to a method.
-/

namespace Codemod

structure NewToBuilder where
  className : String
  /-- The replacement class as it is written at its use. -/
  replacement : String
  method : String

namespace NewToBuilder

def creates (config : NewToBuilder) (tree : Tree) (creation : NodeId) : Bool :=
  (tree.instantiatedClass? creation).any fun className => Name.same className config.className

/-- The creation to replace at a node. One in parentheses is taken with them, if it has arguments:
the builder needs its own. -/
def target? (config : NewToBuilder) (tree : Tree) (id : NodeId) : Option NodeId :=
  match tree.kind? id with
  | some .new => if config.creates tree id then some id else none
  | some .parenthesized =>
      (tree.child? id .expression).filter fun inner =>
        tree.kind? inner == some .new && config.creates tree inner
          && !(tree.arguments inner).isEmpty
  | _ => none

/-- The first argument goes to the builder's method, the others are dropped; without arguments
only the class changes. -/
def apply (config : NewToBuilder) (id : NodeId) : RuleStep Verdict := do
  let tree ← get
  match config.target? tree id with
  | none => return .unchanged
  | some creation =>
      let className ← RuleStep.requireChild creation .className "new expression"
      match tree.arguments creation, tree.child? creation .constructorArguments with
      | _ :: extra, some list =>
          for argument in extra do
            Edit.remove argument
          let object ← Edit.newInstance config.replacement none
          return .replaced (← Edit.methodCall object config.method list)
      | _, _ =>
          Edit.setName className config.replacement
          return .unchanged

def rule (config : NewToBuilder) : Rule where
  id := "new_to_builder"
  description := "Turn a constructor call into a builder call on a replacement class"
  kinds := [.new, .parenthesized]
  accepts tree id _ := .ok (config.target? tree id).isSome
  apply id _ := config.apply id

def ofParams (params : Params) : Except SpecError NewToBuilder := do
  let className ← params.requireString "class"
  let replacement ← params.requireString "replacement"
  let method ← params.requireString "method"
  return { className, replacement := Name.reference replacement, method }

end NewToBuilder

/-- The first argument of the n-th source call in the chain becomes argument n. -/
structure ExtractChainArguments where
  method : String
  rename : Option String
  sources : List String
  /-- Class that static sources must be called on. -/
  className : Option String

namespace ExtractChainArguments

def mayBeSource (config : ExtractChainArguments) (tree : Tree) (call : NodeId) : Bool :=
  match tree.kind? call, config.className with
  | some .methodCall, _ => true
  | some .staticCall, none => true
  | some .staticCall, some wanted =>
      ((tree.child? call .className).bind tree.nameOf?).any fun className =>
        Name.same className wanted
  | _, _ => false

def sourceIndex? (config : ExtractChainArguments) (tree : Tree) (call : NodeId) : Option Nat :=
  if config.mayBeSource tree call then
    (tree.callName? call).bind fun title =>
      config.sources.findIdx? fun source => Name.same source title
  else none

def chain? (config : ExtractChainArguments) (tree : Tree) (call : NodeId) : Option NodeId := do
  if (CallTarget.method config.method).accepts tree call then
    let value ← tree.positionalValue? call 0
    let isCall := match tree.kind? value with
      | some .methodCall | some .staticCall => true
      | _ => false
    let hasFirst := (tree.descendants value).any fun inner =>
      config.sourceIndex? tree inner == some 0
    if isCall && hasFirst then some value else none
  else none

def values (config : ExtractChainArguments) (tree : Tree) (chain : NodeId) :
    List (Option NodeId) :=
  (List.range config.sources.length).map fun index =>
    (tree.descendants chain).findSome? fun call =>
      if config.sourceIndex? tree call = some index then tree.positionalValue? call 0 else none

def fill : Option NodeId → Edit NodeId
  | some value => return value
  | none => Edit.raw "null"

-- Flatten a chain whose values are given; sources missing at the end are left out.
def flatten (config : ExtractChainArguments) (call : NodeId) (values : List (Option NodeId)) :
    RuleStep Unit := do
  let kept := (values.reverse.dropWhile Option.isNone).reverse
  let filled ← kept.mapM fun value => (fill value : RuleStep NodeId)
  let old ← RuleStep.requireChild call .arguments "method call"
  let new ← Edit.argumentsOf filled
  Edit.replaceAt (some ⟨call, .arguments⟩) old new
  if let some title := config.rename then
    Edit.renameCall call title

def apply (config : ExtractChainArguments) (call : NodeId) : RuleStep Verdict := do
  let tree ← get
  if let some chain := config.chain? tree call then
    let values := config.values tree chain
    if (values.head?.bind id).isSome then
      config.flatten call values
  return .unchanged

def rule (config : ExtractChainArguments) : Rule where
  id := "extract_chain_arguments"
  description := "Flatten a builder chain argument into positional arguments"
  kinds := [.methodCall, .staticCall]
  accepts tree call _ := .ok (config.chain? tree call).isSome
  apply call _ := config.apply call

-- A string that may be left out, but is not blank where it is given.
def optionalString (params : Params) (param : String) : Except SpecError (Option String) := do
  if params.contains param then return some (← params.requireString param)
  else return none

def ofParams (params : Params) : Except SpecError ExtractChainArguments := do
  let method ← params.requireString "method"
  let sources ← params.requireList "sources"
  let rename ← optionalString params "rename"
  let className ← optionalString params "class"
  return { method, rename, sources, className }

end ExtractChainArguments

end Codemod
