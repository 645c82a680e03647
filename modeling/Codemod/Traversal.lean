import Codemod.Tree.Edit
import Codemod.Tree.NodeSet

/-!
A walk over a tree that changes under it. Parents come before children and children in slot
order; the children of a node are read again before every step, so edits made anywhere are seen.
A visitor says what becomes of its node, the walk carries that out. No node is visited twice.
-/

namespace Codemod

inductive Verdict where
  | unchanged
  /-- Another node takes its slot. -/
  | replaced (new : NodeId)
  | deleted
  /-- A sequence takes its place in a list; the node itself may be in it. -/
  | inserted (nodes : List NodeId)
deriving DecidableEq, Repr, Inhabited

def Verdict.label : Verdict → String
  | .unchanged => "Unchanged"
  | .replaced _ => "Replaced"
  | .deleted => "Deleted"
  | .inserted _ => "Inserted"

-- A failure that ends the computation it happens in, with what it says.
structure Crash where
  text : Option String
deriving DecidableEq, Repr

def Crash.ofMissing (size index : Nat) : Crash :=
  ⟨some s!"index out of bounds: the len is {size} but the index is {index}"⟩

inductive Stop where
  | crashed (crash : Crash)
  /-- The steps given were too few. -/
  | exhausted
deriving DecidableEq, Repr

/-- The tree on the way, the visitor's own state, and the record of the walk. -/
structure Walk (σ : Type) where
  tree : Tree
  state : σ
  visited : NodeSet := {}
  changes : Nat := 0
  errors : List (NodeId × TreeError) := []
  /-- Nodes that kept being replaced until the limit. -/
  cascadeLimited : List NodeId := []

abbrev Walking (σ α : Type) := ExceptT Stop (StateM (Walk σ)) α

abbrev Visitor (σ : Type) := NodeId → Walking σ Verdict

namespace Walk

variable {σ : Type}

-- Replacements in a row that are followed at one place.
def cascadeLimit : Nat := 32

def mark (id : NodeId) : Walking σ Bool := do
  if (← get).visited.contains id then return false
  modify fun walk => { walk with visited := walk.visited.insert id }
  return true

/-- Carry out an edit; a rejection is noted for the node, and the answer says so. -/
def carryOut (id : NodeId) (edit : Edit Unit) : Walking σ Bool := do
  let walk ← get
  let (result, tree) := edit.run walk.tree
  match result with
  | .ok () =>
      set { walk with tree, changes := walk.changes + 1 }
      return true
  | .error (.rejected error) =>
      set { walk with tree, errors := walk.errors ++ [(id, error)] }
      return false
  | .error (.missing size index) =>
      set { walk with tree }
      throw (.crashed (.ofMissing size index))

inductive Settled where
  | descend (node : NodeId)
  | done
  | inserted (node : NodeId) (nodes : List NodeId)

/-- Visit what stands at a place, and what replaces it, until it stays. -/
def settle (visitor : Visitor σ) (link : Option Link) : Nat → NodeId → Walking σ Settled
  | 0, current => do
      modify fun walk => { walk with cascadeLimited := walk.cascadeLimited ++ [current] }
      return .descend current
  | left + 1, current => do
      match ← visitor current with
      | .unchanged => return .descend current
      | .replaced new =>
          if new = current then return .descend current
          unless ← carryOut current (Edit.replaceAt link current new) do
            return .descend current
          unless ← mark new do
            return .done
          settle visitor link left new
      | .deleted =>
          if ← carryOut current (Edit.removeAt link current) then return .done
          return .descend current
      | .inserted nodes =>
          if ← carryOut current (Edit.spliceAt link current nodes) then
            return .inserted current nodes
          return .descend current

def nextChild? (walk : Walk σ) (parent : NodeId) : Option (Slot × NodeId) :=
  (walk.tree.children parent).find? fun child =>
    !walk.visited.contains child.2 && walk.tree.parent? child.2 == some ⟨parent, child.1⟩

mutual

def visitNode (visitor : Visitor σ) : Nat → NodeId → Option Link → Walking σ Unit
  | 0, _, _ => throw .exhausted
  | steps + 1, id, link => do
      match ← settle visitor link cascadeLimit id with
      | .done => return
      | .descend current => descend visitor steps current
      | .inserted current nodes =>
          nodes.forM fun node => do
            if node = current then descend visitor steps current
            else if ← mark node then visitNode visitor steps node link

def descend (visitor : Visitor σ) : Nat → NodeId → Walking σ Unit
  | 0, _ => throw .exhausted
  | steps + 1, parent => do
      match (← get).nextChild? parent with
      | none => return
      | some (slot, child) =>
          let _ ← mark child
          visitNode visitor steps child (some ⟨parent, slot⟩)
          descend visitor steps parent

end

def subtree (visitor : Visitor σ) (steps : Nat) (start : NodeId) : Walking σ Unit := do
  let tree := (← get).tree
  match tree.node? start with
  | none => throw (.crashed (.ofMissing tree.size start.index))
  | some node =>
      let _ ← mark start
      visitNode visitor steps start node.parent

def run (visitor : Visitor σ) (steps : Nat) (tree : Tree) (state : σ) (start : NodeId) :
    Except Stop Unit × Walk σ :=
  (subtree visitor steps start).run { tree, state }

end Walk

end Codemod
