import Codemod.Text.Position
import Codemod.Text.Splice
import Codemod.Tree.Shape

/-!
A tree is an arena of nodes over a source text. Slots own their nodes; each node also records the
slot that holds it, which is for navigation only. The queries here are total: asking about an id
outside the arena gives nothing.

Ids and revisions are numbers without a bound. An id of 32 bits and a revision of 64 bits are the same
as long as an arena has at most 2 ^ 32 nodes and fewer than 2 ^ 64 edits were counted on it.
-/

namespace Codemod

structure Node where
  shape : Shape
  /-- Place in the source; nodes built by rules have none. -/
  span : Option Span := none
  /-- Slots and spans of the children as they were read. -/
  layout : List (Slot × Span) := []
  /-- The node's own data changed since it was read. -/
  touched : Bool := false
  /-- Back-reference to the slot that holds the node. -/
  parent : Option Link := none
deriving DecidableEq, Repr, Inhabited

inductive Undo where
  | node (id : NodeId) (shape : Shape) (touched : Bool)
  | link (id : NodeId) (link : Option Link)
deriving DecidableEq, Repr

/-- What a transaction began with, and the values overwritten since, latest first. -/
structure Journal where
  size : Nat
  root : NodeId
  revision : Nat
  undo : List Undo := []
deriving DecidableEq, Repr

structure Tree where
  source : String
  nodes : Array Node
  root : NodeId
  /-- Counts edits: a tree with the same revision has not changed. -/
  revision : Nat := 0
  journal : Option Journal := none
deriving DecidableEq, Repr

namespace Tree

def empty (source : String) : Tree :=
  { source, nodes := #[{ shape := .program [] }], root := ⟨0⟩ }

def size (tree : Tree) : Nat :=
  tree.nodes.size

def contains (tree : Tree) (id : NodeId) : Bool :=
  id.index < tree.nodes.size

def node? (tree : Tree) (id : NodeId) : Option Node :=
  tree.nodes[id.index]?

def shape? (tree : Tree) (id : NodeId) : Option Shape :=
  (tree.node? id).map Node.shape

def kind? (tree : Tree) (id : NodeId) : Option Kind :=
  (tree.shape? id).map Shape.kind

def span? (tree : Tree) (id : NodeId) : Option Span :=
  (tree.node? id).bind Node.span

def parent? (tree : Tree) (id : NodeId) : Option Link :=
  (tree.node? id).bind Node.parent

def children (tree : Tree) (id : NodeId) : List (Slot × NodeId) :=
  match tree.shape? id with
  | some shape => shape.children
  | none => []

def childrenIn (tree : Tree) (id : NodeId) (slot : Slot) : List NodeId :=
  ((tree.children id).filter fun held => held.1 = slot).map Prod.snd

def child? (tree : Tree) (id : NodeId) (slot : Slot) : Option NodeId :=
  (tree.childrenIn id slot).head?

-- Whether a node is the root or stands in the slot it says it is held by.
def isAttached (tree : Tree) (id : NodeId) : Bool :=
  id == tree.root ||
    match tree.parent? id with
    | some link => (tree.children link.parent).contains (link.slot, id)
    | none => false

def text? (tree : Tree) (id : NodeId) : Option String := do
  let span ← tree.span? id
  Text.slice? tree.source span.start span.stop

def nameOf? (tree : Tree) (id : NodeId) : Option String :=
  (tree.shape? id).bind Shape.nameText?

-- Children that agree with their slot about where they are.
def held (tree : Tree) (id : NodeId) : List NodeId :=
  ((tree.children id).filter fun child =>
    tree.parent? child.2 = some ⟨id, child.1⟩).map Prod.snd

def within (tree : Tree) : Nat → NodeId → List NodeId
  | 0, _ => []
  | depth + 1, id => id :: (tree.held id).flatMap (tree.within depth)

/-- The subtree of a node, the node first. No path is longer than the arena. -/
def descendants (tree : Tree) (id : NodeId) : List NodeId :=
  tree.within tree.size id

def spanUpward (tree : Tree) : Nat → NodeId → Option Span
  | 0, _ => none
  | depth + 1, id =>
      match tree.span? id with
      | some span => some span
      | none => (tree.parent? id).bind fun link => tree.spanUpward depth link.parent

def anchor? (tree : Tree) (id : NodeId) : Option Span :=
  tree.spanUpward tree.size id

def positionOf (tree : Tree) (anchor : Option Span) : Option Position :=
  anchor.map fun span => Position.ofOffset tree.source span.start

def position? (tree : Tree) (id : NodeId) : Option Position :=
  tree.positionOf (tree.anchor? id)

end Tree

end Codemod
