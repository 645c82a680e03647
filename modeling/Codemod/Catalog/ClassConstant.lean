import Codemod.Catalog.Call

/-!
Replacing string arguments by references to classes and class constants.
-/

namespace Codemod

structure ClassConstant where
  className : String
  constant : String
deriving DecidableEq, Repr

namespace ClassConstant

def splitLast? : List Char → Option (List Char × List Char)
  | [] => none
  | c :: cs =>
      match splitLast? cs with
      | some (front, back) => some (c :: front, back)
      | none =>
          match c, cs with
          | ':', ':' :: back => some ([], back)
          | _, _ => none

def isWord (cs : List Char) : Bool :=
  !cs.isEmpty && !cs.any Text.isBlank

def parse? (text : String) : Option ClassConstant := do
  let (className, constant) ← splitLast? (Text.trim text).toList
  if isWord className && isWord constant then
    some ⟨String.ofList className, String.ofList constant⟩
  else none

end ClassConstant

/-- A string that names a known class becomes a reference to it, one of the listed strings its
constant. -/
structure StringToClassConstant where
  target : CallTarget
  position : Nat
  constants : List (String × ClassConstant)

namespace StringToClassConstant

def constantFor? (config : StringToClassConstant) (symbols : Symbols) (text : String) :
    Option ClassConstant :=
  if text ≠ "" ∧ symbols.hasClass text then some ⟨text, "class"⟩
  else
    (config.constants.lookup text).filter fun constant =>
      match symbols.classMembers? constant.className with
      | some members => members.contains constant.constant
      | none => true

def replacement? (config : StringToClassConstant) (tree : Tree) (call : NodeId)
    (symbols : Symbols) : Except Crash (Option (NodeId × ClassConstant)) := do
  unless config.target.accepts tree call do return none
  match tree.positionalValue? call config.position with
  | none => return none
  | some value =>
      let text ← tree.stringValue value
      return (text.bind (config.constantFor? symbols)).map fun constant => (value, constant)

def apply (config : StringToClassConstant) (call : NodeId) (context : Context) :
    RuleStep Verdict := do
  let found ← RuleStep.ofQuery fun tree => config.replacement? tree call context.symbols
  if let some (value, constant) := found then
    let fetch ← Edit.classConstFetch (Name.reference constant.className) constant.constant
    Edit.replace value fetch
  return .unchanged

def rule (config : StringToClassConstant) : Rule where
  id := "string_to_class_constant"
  description := "Replace string arguments by class name or class constant references"
  kinds := CallTarget.kinds
  accepts tree call context :=
    (config.replacement? tree call context.symbols).map Option.isSome
  apply := config.apply

def readConstants (params : Params) :
    List (String × String) → Except SpecError (List (String × ClassConstant))
  | [] => .ok []
  | (text, reference) :: rest => do
      match ClassConstant.parse? reference with
      | some constant => return (text, constant) :: (← readConstants params rest)
      | none => params.invalid "constants" (.notClassConstant reference)

def ofParams (params : Params) : Except SpecError StringToClassConstant := do
  let target ← CallTarget.ofParams params
  let position ← params.requirePosition "position"
  let constants ←
    if params.contains "constants" then
      readConstants params (← params.requireMap "constants")
    else pure []
  return { target, position, constants }

end StringToClassConstant

end Codemod
