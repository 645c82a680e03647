import Codemod.Rule
import Codemod.Tree.Build

/-!
Descriptions of nodes: a node that is there already, one found by a path, or one to be built from
parts. Parts are built in the order in which they are listed, the node itself last.
-/

namespace Codemod

inductive Blueprint where
  | existing (id : NodeId)
  /-- Labels of slots, each with an index if its first node is not meant, after `self`. -/
  | path (text : String)
  /-- A node like the template, with the parts in the slots listed beside them. -/
  | node (template : Shape) (slots : List Slot) (parts : List Blueprint)
  /-- Argument list of positional arguments; the values are built before the arguments. -/
  | argumentsOf (values : List Blueprint)

-- The shape with one more node in a slot: in a list it comes last, elsewhere alone.
def Shape.fill (shape : Shape) (slot : Slot) (id : NodeId) : Shape :=
  match shape.storage? slot with
  | some (.one _) => shape.store slot (.one id)
  | some (.maybe _) => shape.store slot (.maybe (some id))
  | some (.many held) => shape.store slot (.many (held ++ [id]))
  | none => shape

def Shape.fillAll (template : Shape) (slots : List Slot) (ids : List NodeId) : Shape :=
  (slots.zip ids).foldl (fun shape part => shape.fill part.1 part.2) template

def Tree.follow? (tree : Tree) : NodeId → List String → Option NodeId
  | id, [] => some id
  | id, [label] => (Slot.ofLabel? label).bind (tree.child? id)
  | id, label :: next :: rest =>
      match Slot.ofLabel? label, next.toNat? with
      | none, _ => none
      | some slot, some index =>
          (tree.childrenIn id slot)[index]?.bind fun child => tree.follow? child rest
      | some slot, none =>
          (tree.child? id slot).bind fun child => tree.follow? child (next :: rest)

def Tree.nodeAt? (tree : Tree) (current : Option NodeId) (path : String) : Option NodeId :=
  match current, path.splitOn "." with
  | some id, "self" :: labels => tree.follow? id labels
  | _, _ => none

namespace Blueprint

mutual

def build (current : Option NodeId) : Blueprint → RuleStep NodeId
  | .existing id => return id
  | .path text => do
      match (← get).nodeAt? current text with
      | some id => return id
      | none => throw (.error (.message s!"no node at {text}"))
  | .node template slots parts => do
      let ids ← buildAll current parts
      Edit.alloc (template.fillAll slots ids)
  | .argumentsOf values => do
      let ids ← buildAll current values
      Edit.argumentsOf ids

def buildAll (current : Option NodeId) : List Blueprint → RuleStep (List NodeId)
  | [] => return []
  | blueprint :: rest => do
      let id ← build current blueprint
      return id :: (← buildAll current rest)

end

def payload (current : Option NodeId) : Blueprint → RuleStep Shape
  | .node template slots parts => do
      return template.fillAll slots (← buildAll current parts)
  | .argumentsOf values => do
      return .argumentList (← buildAll current values)
  | .existing id => do
      match (← get).shape? id with
      | some shape => return shape
      | none => throw (.crash (.ofMissing (← get).size id.index))
  | .path text => throw (.error (.message s!"no node at {text}"))

end Blueprint

end Codemod
