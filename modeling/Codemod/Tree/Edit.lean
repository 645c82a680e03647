import Codemod.Tree.Journal

/-!
Structural edits. An edit runs on a tree and either answers, is rejected for a stated reason, or
stops at an id the arena does not have. The tree comes back in each case: a rejected edit has
changed nothing that a query shows, while one that stops may leave the steps made before it.
-/

namespace Codemod

inductive TreeError where
  | invalidRemoval (node : NodeId) (slot : Option Slot)
  | notAList (slot : Slot)
  | notInSlot (node parent : NodeId) (slot : Slot)
  | noSuchSlot (kind : Kind) (slot : Slot)
  | indexOutOfRange (slot : Slot) (index length : Nat)
  | notNamed (node : NodeId) (kind : Kind)
deriving DecidableEq, Repr

def TreeError.message : TreeError → String
  | .invalidRemoval node none => s!"cannot remove {node.render} from required slot None"
  | .invalidRemoval node (some slot) =>
      s!"cannot remove {node.render} from required slot Some({slot.label})"
  | .notAList slot => s!"slot {slot.label} does not hold a list of nodes"
  | .notInSlot node parent slot =>
      s!"{node.render} is not held by slot {slot.label} of {parent.render}"
  | .noSuchSlot kind slot => s!"{kind.label} node has no {slot.label} slot"
  | .indexOutOfRange slot index length =>
      s!"index {index} out of range for slot {slot.label} of length {length}"
  | .notNamed node kind => s!"{node.render} is a {kind.label} node and has no name"

inductive Fault where
  | rejected (error : TreeError)
  /-- The arena of the given size has no node with this index. -/
  | missing (size index : Nat)
deriving DecidableEq, Repr

abbrev Edit (α : Type) := ExceptT Fault (StateM Tree) α

namespace Tree

def bump (tree : Tree) : Tree :=
  { tree with revision := tree.revision + 1 }

def setShape (tree : Tree) (id : NodeId) (shape : Shape) : Tree :=
  { tree with nodes := tree.nodes.modify id.index fun node => { node with shape } }

-- New data for a node, which then no longer prints as its source.
def setData (tree : Tree) (id : NodeId) (shape : Shape) : Tree :=
  { tree with
    nodes := tree.nodes.modify id.index fun node => { node with shape, touched := true } }

def setParent (tree : Tree) (id : NodeId) (link : Option Link) : Tree :=
  let tree := tree.recordLink id
  { tree with nodes := tree.nodes.modify id.index fun node => { node with parent := link } }

/-- Point a node at the slot that now holds it. Moving a node that pointed elsewhere is an edit of
its own. -/
def relink (tree : Tree) (id : NodeId) (link : Option Link) : Tree :=
  let former := tree.parent? id
  if former = link then tree
  else
    let tree := tree.setParent id link
    if former.isSome then tree.bump else tree

def unlink (tree : Tree) (id : NodeId) (expected : Option Link) : Tree :=
  if tree.parent? id = expected then tree.setParent id none else tree

def append (tree : Tree) (node : Node) : Tree :=
  { tree with nodes := tree.nodes.push node }

def adopt (tree : Tree) (parent : NodeId) (children : List (Slot × NodeId)) : Tree :=
  children.foldl (fun tree child => tree.relink child.2 (some ⟨parent, child.1⟩)) tree

-- Add a node read from the source, with the spans of its children as its layout.
def appendParsed (tree : Tree) (shape : Shape) (span : Span) : NodeId × Tree :=
  let id : NodeId := ⟨tree.size⟩
  let layout := shape.children.filterMap fun child =>
    (tree.span? child.2).map fun span => (child.1, span)
  (id, (tree.append { shape, span := some span, layout }).adopt id shape.children)

def setRoot (tree : Tree) (id : NodeId) : Tree :=
  { tree.setParent id none with root := id }

end Tree

namespace Edit

def reject {α : Type} (error : TreeError) : Edit α :=
  throw (.rejected error)

def node (id : NodeId) : Edit Node := do
  let tree ← get
  match tree.node? id with
  | some node => return node
  | none => throw (.missing tree.size id.index)

def relink (id : NodeId) (link : Option Link) : Edit Unit := do
  let _ ← node id
  modify fun tree => tree.relink id link

def unlink (id : NodeId) (expected : Option Link) : Edit Unit := do
  let _ ← node id
  modify fun tree => tree.unlink id expected

def bump : Edit Unit :=
  modify Tree.bump

def alloc (shape : Shape) : Edit NodeId := do
  let id : NodeId := ⟨(← get).size⟩
  modify fun tree => tree.append { shape }
  shape.children.forM fun child => relink child.2 (some ⟨id, child.1⟩)
  return id

def setName (id : NodeId) (value : String) : Edit Unit := do
  let shape := (← node id).shape
  let renamed ← match shape with
    | .name _ => pure (Shape.name value)
    | .variable _ => pure (Shape.variable value)
    | other => reject (.notNamed id other.kind)
  unless shape = renamed do
    modify fun tree => ((tree.recordNode id).setData id renamed).bump

def setLeaf (id : NodeId) (shape : Shape) : Edit Unit := do
  unless shape.children.isEmpty do
    reject (.noSuchSlot shape.kind .part)
  let former := (← node id).shape
  unless former.children.isEmpty do
    reject (.noSuchSlot shape.kind .part)
  unless former = shape do
    modify fun tree => ((tree.recordNode id).setData id shape).bump

def openSlot (link : Link) : Edit (Shape × Storage) := do
  let shape := (← node link.parent).shape
  modify fun tree => tree.recordNode link.parent
  match shape.storage? link.slot with
  | some storage => return (shape, storage)
  | none => reject (.noSuchSlot shape.kind link.slot)

-- Put `new` where `old` stands in the slot; no slot at all is the place of the root.
def replaceAt (link : Option Link) (old new : NodeId) : Edit Unit := do
  if old = new then return
  match link with
  | none =>
      let tree ← get
      if old ≠ tree.root then
        reject (.invalidRemoval old none)
      let _ ← node new
      set (tree.setRoot new)
      unlink old none
      bump
  | some link =>
      let (shape, storage) ← openSlot link
      match storage.replace? old new with
      | none => reject (.notInSlot old link.parent link.slot)
      | some storage =>
          modify fun tree => tree.setShape link.parent (shape.store link.slot storage)
          unlink old (some link)
          relink new (some link)
          bump

-- Take a node out of the slot; slots that must be filled give nothing up.
def removeAt (link : Option Link) (id : NodeId) : Edit Unit := do
  match link with
  | none => reject (.invalidRemoval id none)
  | some link =>
      if link.slot.arity = .required then
        reject (.invalidRemoval id (some link.slot))
      let (shape, storage) ← openSlot link
      match storage.remove? id with
      | none => reject (.notInSlot id link.parent link.slot)
      | some storage =>
          modify fun tree => tree.setShape link.parent (shape.store link.slot storage)
          unlink id (some link)
          bump

def spliceAt (link : Option Link) (id : NodeId) (replacement : List NodeId) : Edit Unit := do
  match link with
  | none => reject (.invalidRemoval id none)
  | some link =>
      if link.slot.arity ≠ .list then
        reject (.notAList link.slot)
      let (shape, storage) ← openSlot link
      match storage with
      | .many held =>
          if id ∉ held then
            reject (.notInSlot id link.parent link.slot)
          let filled := Storage.many (spliceFirst id replacement held)
          modify fun tree => tree.setShape link.parent (shape.store link.slot filled)
          if id ∉ replacement then
            unlink id (some link)
          replacement.forM fun id => relink id (some link)
          bump
      | _ => reject (.noSuchSlot shape.kind link.slot)

def replace (old new : NodeId) : Edit Unit := do
  replaceAt (← node old).parent old new

def remove (id : NodeId) : Edit Unit := do
  removeAt (← node id).parent id

def splice (id : NodeId) (replacement : List NodeId) : Edit Unit := do
  spliceAt (← node id).parent id replacement

def insert (parent : NodeId) (slot : Slot) (index : Nat) (id : NodeId) : Edit Unit := do
  if slot.arity ≠ .list then
    reject (.notAList slot)
  let link : Link := ⟨parent, slot⟩
  let (shape, storage) ← openSlot link
  match storage with
  | .many held =>
      if held.length < index then
        reject (.indexOutOfRange slot index held.length)
      let filled := Storage.many (held.insertIdx index id)
      modify fun tree => tree.setShape parent (shape.store slot filled)
      relink id (some link)
      bump
  | _ => reject (.noSuchSlot shape.kind slot)

def push (parent : NodeId) (slot : Slot) (id : NodeId) : Edit Unit := do
  let _ ← node parent
  insert parent slot ((← get).childrenIn parent slot).length id

def setOptional (parent : NodeId) (slot : Slot) (id : Option NodeId) : Edit Unit := do
  if slot.arity ≠ .optional then
    reject (.noSuchSlot (← node parent).shape.kind slot)
  let link : Link := ⟨parent, slot⟩
  let (shape, storage) ← openSlot link
  match storage with
  | .maybe former =>
      if former = id then return
      modify fun tree => tree.setShape parent (shape.store slot (.maybe id))
      former.forM fun id => unlink id (some link)
      id.forM fun id => relink id (some link)
      bump
  | _ => reject (.noSuchSlot shape.kind slot)

end Edit

end Codemod
