import Codemod.Blueprint
import Codemod.Catalog.Call

/-!
Rules written as data: conditions on a node, and actions on it. All conditions must hold; the
actions are made in order, the last one says what becomes of the node, and the first that fails
ends them.
-/

namespace Codemod

inductive Condition where
  | index (position : Nat)
  /-- The node was read from the source, or was not. -/
  | parsed (expected : Bool)
  | nameIs (text : String)
  | textIs (text : String)
  | slotIs (slot : Slot)
  | calleeIs (title : String)
  | classIs (title : String)
  | argumentCount (count : Nat)
  | rawIs (text : String)
  | firstStringIs (text : String)
  | classKnown (title : String)
  | crash (text : String)
deriving DecidableEq, Repr

def Condition.holds (tree : Tree) (id : NodeId) (context : Context) :
    Condition → Except Crash Bool
  | .index position => .ok (id.index == position)
  | .parsed expected => .ok ((tree.span? id).isSome == expected)
  | .nameIs text => .ok (tree.nameOf? id == some text)
  | .textIs text => .ok (tree.text? id == some text)
  | .slotIs slot => .ok ((tree.parent? id).map Link.slot == some slot)
  | .calleeIs title => .ok (tree.callName? id == some title)
  | .classIs title => .ok (tree.instantiatedClass? id == some title)
  | .argumentCount count => .ok ((tree.arguments id).length == count)
  | .rawIs text => .ok (tree.shape? id == some (.raw text))
  | .firstStringIs text =>
      match tree.positionalValue? id 0 with
      | some value => return (← tree.stringValue value) == some text
      | none => .ok false
  | .classKnown title => .ok (context.symbols.hasClass title)
  | .crash text => .error ⟨some text⟩

inductive Action where
  | setName (value : String)
  | renameCall (value : String)
  | remove (node : Blueprint)
  | push (parent : Blueprint) (slot : Slot) (node : Blueprint)
  | replaceNow (old new : Blueprint)
  | alloc (node : Blueprint)
  | replace (new : Blueprint)
  | delete
  | insert (nodes : List Blueprint)
  | fail (message : String)
  | unexpectedShape
  | crash (text : Option String)

def Action.run (id : NodeId) : Action → RuleStep Verdict
  | .setName value => do
      Edit.setName id value
      return .unchanged
  | .renameCall value => do
      Edit.renameCall id value
      return .unchanged
  | .remove node => do
      let node ← node.build (some id)
      Edit.remove node
      return .unchanged
  | .push parent slot node => do
      let parent ← parent.build (some id)
      let node ← node.build (some id)
      Edit.push parent slot node
      return .unchanged
  | .replaceNow old new => do
      let old ← old.build (some id)
      let new ← new.build (some id)
      Edit.replace old new
      return .unchanged
  | .alloc node => do
      let _ ← node.build (some id)
      return .unchanged
  | .replace new => return .replaced (← new.build (some id))
  | .delete => return .deleted
  | .insert nodes => return .inserted (← Blueprint.buildAll (some id) nodes)
  | .fail message => throw (.error (.message message))
  | .unexpectedShape => do
      match (← get).kind? id with
      | some found => throw (.error (.unexpectedShape "call" found))
      | none => throw (.crash (.ofMissing (← get).size id.index))
  | .crash text => throw (.crash ⟨text⟩)

structure Script where
  id : String
  kinds : List Kind
  conditions : List Condition
  actions : List Action

-- What a visitor made of scripts did at a node: nothing, or a script with its verdict or the text
-- of its error.
structure Visit where
  node : NodeId
  act : Option (String × String) := none
deriving DecidableEq, Repr

def Walk.noting (walk : Walk (List Visit)) (visit : Visit) : Walk (List Visit) :=
  { walk with state := walk.state ++ [visit] }

namespace Script

-- Whether all conditions hold; those after the first that fails are not tried.
def holdsAll (tree : Tree) (id : NodeId) (context : Context) :
    List Condition → Except Crash Bool
  | [] => .ok true
  | condition :: rest => do
      if ← condition.holds tree id context then holdsAll tree id context rest
      else return false

def runAll (id : NodeId) : Verdict → List Action → RuleStep Verdict
  | verdict, [] => return verdict
  | _, action :: rest => do
      let verdict ← action.run id
      runAll id verdict rest

def accepts (script : Script) (tree : Tree) (id : NodeId) (context : Context) :
    Except Crash Bool :=
  holdsAll tree id context script.conditions

def run (script : Script) (id : NodeId) : RuleStep Verdict :=
  runAll id .unchanged script.actions

def rule (script : Script) : Rule where
  id := script.id
  description := "scripted"
  kinds := script.kinds
  accepts := script.accepts
  apply id _ := script.run id

def firstFor (tree : Tree) (id : NodeId) : List Script → Except Crash (Option Script)
  | [] => .ok none
  | script :: rest => do
      if (tree.kind? id).any script.kinds.contains then
        if ← script.accepts tree id {} then return some script
      firstFor tree id rest

/-- Walk with scripts: the first one for a node acts on it. An error is noted and leaves the node
to the walk. -/
def visitor (scripts : List Script) : Visitor (List Visit) := fun id => do
  let walk ← get
  match firstFor walk.tree id scripts with
  | .error crash => throw (.crashed crash)
  | .ok none =>
      set (walk.noting { node := id })
      return .unchanged
  | .ok (some script) =>
      let (result, tree) := (script.run id).run walk.tree
      match result with
      | .ok verdict =>
          set ({ walk with tree }.noting { node := id, act := some (script.id, verdict.label) })
          return verdict
      | .error (.error reason) =>
          set ({ walk with tree }.noting { node := id, act := some (script.id, reason.text) })
          return .unchanged
      | .error (.crash crash) =>
          set { walk with tree }
          throw (.crashed crash)

end Script

end Codemod
