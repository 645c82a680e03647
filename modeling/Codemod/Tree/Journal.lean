import Codemod.Tree.Basic

/-!
Transactions. From a checkpoint on, every value that is about to be overwritten goes into the
journal; rolling back puts the values back, latest first, and drops the nodes made since.
-/

namespace Codemod.Tree

def inTransaction (tree : Tree) : Bool :=
  tree.journal.isSome

def checkpoint (tree : Tree) : Tree :=
  { tree with journal := some { size := tree.size, root := tree.root, revision := tree.revision } }

def commit (tree : Tree) : Tree :=
  { tree with journal := none }

def restore (nodes : Array Node) : Undo → Array Node
  | .node id shape touched => nodes.modify id.index fun node => { node with shape, touched }
  | .link id link => nodes.modify id.index fun node => { node with parent := link }

def rollback (tree : Tree) : Tree :=
  match tree.journal with
  | none => tree
  | some journal =>
      { tree with
        nodes := (journal.undo.foldl restore tree.nodes).extract 0 journal.size
        root := journal.root
        revision := journal.revision
        journal := none }

-- Keep a former value; nodes made since the checkpoint need none.
def record (tree : Tree) (id : NodeId) (former : Node → Undo) : Tree :=
  match tree.journal, tree.node? id with
  | some journal, some node =>
      if id.index < journal.size then
        { tree with journal := some { journal with undo := former node :: journal.undo } }
      else tree
  | _, _ => tree

def recordNode (tree : Tree) (id : NodeId) : Tree :=
  tree.record id fun node => .node id node.shape node.touched

def recordLink (tree : Tree) (id : NodeId) : Tree :=
  tree.record id fun node => .link id node.parent

end Codemod.Tree
