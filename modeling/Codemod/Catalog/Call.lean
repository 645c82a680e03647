import Codemod.Catalog.Parameter
import Codemod.Rule
import Codemod.Text.Hidden
import Codemod.Tree.Build

/-!
What rules ask about calls: what is called, and with which arguments. Named and unpacked arguments
are never addressed by position.
-/

namespace Codemod

namespace Tree

def spelledName? (tree : Tree) (id : NodeId) : Option String :=
  match tree.shape? id with
  | some (.name value) => some value
  | _ => none

def callName? (tree : Tree) (call : NodeId) : Option String :=
  let slot? := match tree.kind? call with
    | some .functionCall => some Slot.callee
    | some .methodCall | some .staticCall => some .method
    | _ => none
  slot?.bind fun slot => (tree.child? call slot).bind tree.spelledName?

def instantiatedClass? (tree : Tree) (creation : NodeId) : Option String :=
  (tree.child? creation .className).bind tree.spelledName?

def arguments (tree : Tree) (call : NodeId) : List NodeId :=
  let slot := if tree.kind? call = some .new then Slot.constructorArguments else .arguments
  match tree.child? call slot with
  | some list => tree.childrenIn list .argument
  | none => []

def positionalValue? (tree : Tree) (call : NodeId) (position : Nat) : Option NodeId := do
  let argument ← (tree.arguments call)[position]?
  match tree.shape? argument with
  | some (.argument none false value) => some value
  | _ => none

/-- The string a node stands for, if it is a plain string literal. A literal whose quotes are
characters of several bytes cannot be cut between them. -/
def stringValue (tree : Tree) (id : NodeId) : Except Crash (Option String) :=
  match tree.shape? id with
  | some (.literal literal) =>
      match literal.quote? with
      | some quote =>
          if literal.misquoted then
            let shown := Text.shown quote
            .error ⟨some ("start byte index 1 is not a char boundary; it is inside "
              ++ s!"'{shown}' (bytes 0..{quote.utf8Size} of string)")⟩
          else .ok literal.stringValue?
      | none => .ok none
  | _ => .ok none

end Tree

def Edit.renameCall (call : NodeId) (title : String) : Edit Unit := do
  let tree ← get
  let slot := if tree.kind? call = some .functionCall then Slot.callee else .method
  match tree.child? call slot with
  | some callee => Edit.setName callee title
  | none => return

inductive CallTarget where
  | function (title : String)
  /-- Calls on an object or on a class. -/
  | method (title : String)
deriving DecidableEq, Repr

namespace CallTarget

def kinds : List Kind :=
  [.functionCall, .methodCall, .staticCall]

-- Exactly one of the parameters `function` and `method` names the target.
def ofParams (params : Params) : Except SpecError CallTarget := do
  let function ← params.string? "function"
  let method ← params.string? "method"
  match function, method with
  | some _, some _ => params.invalid "method" .twoTargets
  | none, none => params.missing "function"
  | some title, none =>
      if Text.allBlank title then params.invalid "function" .empty else return .function title
  | none, some title =>
      if Text.allBlank title then params.invalid "method" .empty else return .method title

def wanted? : CallTarget → Kind → Option String
  | .function title, .functionCall => some title
  | .method title, .methodCall => some title
  | .method title, .staticCall => some title
  | _, _ => none

def accepts (target : CallTarget) (tree : Tree) (call : NodeId) : Bool :=
  match (tree.kind? call).bind target.wanted?, tree.callName? call with
  | some wanted, some title => Name.same title wanted
  | _, _ => false

end CallTarget

end Codemod
