import Codemod.Proofs.Tree.Parsed

/-!
Trees that are made or read and then edited, in and out of transactions. Whatever the edits are given
and however they end, no back-reference of such a tree is stale: the slot that is named has the node,
so that a node is attached exactly if it is the root or has a back-reference (`backed_of_reached`).
-/

namespace Codemod.Tree

variable {tree : Tree}

/-- Trees that are made or read, then edited in and out of transactions. -/
inductive Reached : Tree → Prop where
  | empty (source : String) : Reached (Tree.empty source)
  | read (source : String) (program : List Php.Statement) : Reached (Tree.ofProgram source program)
  | edited {tree : Tree} (operation : Operation) (before : Reached tree) :
      Reached (operation.after tree)
  | checkpoint {tree : Tree} (before : Reached tree) : Reached tree.checkpoint
  | commit {tree : Tree} (before : Reached tree) : Reached tree.commit
  | rollback {tree : Tree} (before : Reached tree) : Reached tree.rollback

theorem Reached.edits (reached : tree.Reached) (operations : List Operation) :
    (tree.edited operations).Reached := by
  induction operations generalizing tree with
  | nil => exact reached
  | cons operation rest ih => exact ih (reached.edited operation)

theorem backed_lasting : Lasting Backed where
  of_commit := backed_of_commit
  after operation backed := backed.after operation

/-- What every tree has that is made or read, and edits keep, all these trees have, now and after
rolling back. -/
theorem Reached.keeps {P : Tree → Prop} (lasting : Lasting P)
    (empty : ∀ source, P (Tree.empty source))
    (read : ∀ source program, P (Tree.ofProgram source program)) (reached : tree.Reached) :
    tree.Kept P := by
  induction reached with
  | empty source => exact .of_closed (empty source) rfl
  | read source program =>
      exact .of_closed (read source program) (ofProgram_read source program).journal
  | edited operation _ before => exact before.edited lasting operation
  | checkpoint _ before => exact before.checkpoint lasting
  | commit _ before => exact before.commit lasting
  | rollback _ before => exact before.rollback

theorem Reached.kept (reached : tree.Reached) : tree.Kept Backed := by
  refine reached.keeps backed_lasting (fun source id link named => ?_) fun source program =>
    (ofProgram_read source program).backed
  have unheld : (Tree.empty source).Every fun node => node.parent = none := every_empty source rfl
  obtain ⟨node, found, points⟩ := node?_of_parent? named
  cases (unheld id node found).symm.trans points

/-- No edit leaves a stale back-reference behind, by whatever link it is addressed, and whether or
not it is refused, stopped or rolled back. -/
theorem backed_of_reached (reached : tree.Reached) :
    (∀ id link, tree.parent? id = some link →
        tree.contains link.parent ∧ (link.slot, id) ∈ tree.children link.parent)
      ∧ ∀ id, tree.isAttached id ↔ id = tree.root ∨ (tree.parent? id).isSome := by
  have backed := reached.kept.now
  refine ⟨?_, backed.isAttached_iff⟩
  intro id link named
  have held := backed id link named
  obtain ⟨_, found, _⟩ := shape?_of_child held
  exact ⟨contains_of_shape? found, held⟩

-- A node stands twice in a program and is an argument as well; it is taken out of the program once,
-- then for good in a transaction that is rolled back after an edit that stopped.
def heldThrice : Tree :=
  (((Tree.empty "").edited [.construct (.raw "x"), .push ⟨0⟩ .statement ⟨1⟩,
      .push ⟨0⟩ .statement ⟨1⟩, .construct (.argument ⟨1⟩),
      .removeAt (some ⟨⟨0⟩, .statement⟩) ⟨1⟩]).checkpoint.edited
    [.removeAt (some ⟨⟨0⟩, .statement⟩) ⟨1⟩, .push ⟨0⟩ .statement ⟨9⟩]).rollback

theorem backed_of_held_thrice : heldThrice.Reached
    ∧ heldThrice.parent? ⟨1⟩ = some ⟨⟨2⟩, .value⟩
    ∧ (.value, ⟨1⟩) ∈ heldThrice.children ⟨2⟩
    ∧ heldThrice.isAttached ⟨1⟩ := by
  have reached : heldThrice.Reached := .rollback (.edits (.checkpoint (.edits (.empty "") _)) _)
  have named : heldThrice.parent? ⟨1⟩ = some ⟨⟨2⟩, .value⟩ := by decide +kernel
  obtain ⟨backed, attached⟩ := backed_of_reached reached
  exact ⟨reached, named, (backed _ _ named).2, (attached _).mpr (Or.inr (named ▸ rfl))⟩

end Codemod.Tree
