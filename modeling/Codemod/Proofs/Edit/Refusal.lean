import Codemod.Proofs.Edit.Blind
import Codemod.Proofs.Edit.Rollback

/-!
Edits that are refused. Such an edit may have noted the slot it looked into before it found nothing
to do there, and has done nothing else. Its entry in the journal is the value that the node has, so
that putting it back changes nothing at any later time. Main statement: whatever is edited afterwards,
committing and rolling back lead to the same tree as without the edit (`refusal_changes_nothing`).
-/

namespace Codemod

open Step

namespace Edit

variable {α : Type}

/-- Adding nodes is never refused. -/
theorem Allocates.accepted {edit : Edit α} (allocates : edit.Allocates) (tree : Tree)
    (error : TreeError) : (edit.run tree).1 ≠ .error (.rejected error) := by
  induction allocates generalizing tree with
  | pure value => nofun
  | alloc shape =>
      rcases run_alloc shape tree with finishes | ⟨done, size, index, stops⟩
      · rw [finishes]
        nofun
      · rw [stops]
        nofun
  | @bind _ _ edit next _ _ first second =>
      intro refused
      have accepted := first tree
      generalize ran : edit.run tree = result at accepted
      rcases result with ⟨fault | value, after⟩
      · rw [run_bind_error ran] at refused
        cases refused
        exact accepted rfl
      · rw [run_bind_ok ran] at refused
        exact second value after refused

theorem Course.noted {tree : Tree} {result : Except Fault Unit × Tree} (ended : Course tree result)
    {error : TreeError} (refused : result.1 = .error (.rejected error)) :
    result.2 = tree ∨ ∃ id, result.2 = tree.recordNode id := by
  cases ended with
  | refused => exact Or.inl rfl
  | opened id => exact Or.inr ⟨id, rfl⟩
  | _ => cases refused

end Edit

theorem Operation.noted_of_refused {operation : Operation} {tree : Tree} {error : TreeError}
    (refused : (operation.run.run tree).1 = .error (.rejected error)) :
    operation.after tree = tree ∨ ∃ id, operation.after tree = tree.recordNode id := by
  rcases operation.course_or_allocates with courses | allocates
  · exact (courses tree).noted refused
  · exact absurd refused (allocates.accepted tree error)

namespace Tree

variable {tree : Tree}

/-- Noting a node adds its present value to the journal, or nothing. -/
theorem recordNode_eq (tree : Tree) (id : NodeId) :
    tree.recordNode id = tree ∨ ∃ journal node, tree.journal = some journal
      ∧ tree.node? id = some node ∧ id.index < journal.size
      ∧ tree.recordNode id = { tree with
          journal := some { journal with undo := .node id node.shape node.touched :: journal.undo } } := by
  unfold recordNode record
  split
  · next journal node opened found =>
      split
      · next older => exact Or.inr ⟨journal, node, opened, found, older, rfl⟩
      · exact Or.inl rfl
  · exact Or.inl rfl

theorem restore_present {nodes : Array Node} {id : NodeId} {node : Node}
    (found : nodes[id.index]? = some node) :
    restore nodes (.node id node.shape node.touched) = nodes := by
  apply Array.ext_getElem?
  intro index
  rw [getElem?_restore]
  by_cases here : id.index = index
  · subst here
    simp [found, Undo.back]
  · simp [Undo.back, here]

/-- An entry below all that come later is put back last but for those that were there before it, and
by then the node has the value again that it had when the entry was made. -/
theorem rollback_recordNode (tree : Tree) (id : NodeId) (later : List Operation) :
    ((tree.recordNode id).edited later).rollback = (tree.edited later).rollback := by
  rcases tree.recordNode_eq id with same | ⟨journal, node, opened, found, older, noted⟩
  · rw [same]
  let entry : Undo := .node id node.shape node.touched
  -- Both trees are one with an empty journal, and some entries put under its later ones.
  let clean : Tree := { tree with journal := some { journal with undo := [] } }
  have before : tree = clean.rejournal (onto journal.undo) := by
    simp [clean, rejournal, onto, ← opened]
  have without : tree.edited later = (clean.edited later).rejournal (onto journal.undo) :=
    (congrArg (fun tree => tree.edited later) before).trans
      (edited_rejournal (goesAlong_onto _) clean later)
  have within : (tree.recordNode id).edited later
      = (clean.edited later).rejournal (onto (entry :: journal.undo)) :=
    (congrArg (fun tree => tree.edited later) noted).trans
      (edited_rejournal (goesAlong_onto _) clean later)
  obtain ⟨last, still, size, root, revision, former⟩ :=
    (recalls_respected.edited later clean).journals _ rfl
  -- Once the later entries are put back, the node is as it was when it was noted.
  have restored : (last.undo.foldl restore (clean.edited later).nodes)[id.index]? = some node := by
    have present : clean.nodes[id.index]? = some node := found
    have inside : id.index < clean.size := (Array.getElem?_eq_some_iff.mp present).1
    rw [getElem?_foldl_restore]
    refine (former id.index older inside).trans ?_
    rw [present]
    rfl
  have replayed : (last.undo ++ entry :: journal.undo).foldl restore (clean.edited later).nodes
      = (last.undo ++ journal.undo).foldl restore (clean.edited later).nodes := by
    rw [List.foldl_append, List.foldl_append, List.foldl_cons, restore_present restored]
  rw [within, without]
  simp only [rollback, rejournal, onto, still, Option.map_some, replayed]

theorem edited_commit (tree : Tree) (operations : List Operation) :
    (tree.edited operations).commit = tree.commit.edited operations :=
  (edited_rejournal goesAlong_commit tree operations).symm

/-- The answer of an edit depends on the nodes, the root and the revision only. -/
theorem answer_of_commit {other : Tree} (same : tree.commit = other.commit) (operation : Operation) :
    (operation.run.run tree).1 = (operation.run.run other).1 := by
  have first := congrArg Prod.fst (operation.ignores goesAlong_commit tree)
  have second := congrArg Prod.fst (operation.ignores goesAlong_commit other)
  have committed : tree.rejournal (fun _ => none) = other.rejournal fun _ => none := same
  rw [committed, second] at first
  exact first.symm

/-- A refused edit leaves all nodes with their back-references, the root, the revision and the size of
the arena as they were, and a transaction open that was. Edits that are made afterwards answer as
they would have, and committing and rolling back then lead to the same tree. -/
theorem refusal_changes_nothing (tree : Tree) (operation : Operation) {error : TreeError}
    (refused : (operation.run.run tree).1 = .error (.rejected error)) :
    ((operation.after tree).nodes = tree.nodes
        ∧ (operation.after tree).root = tree.root
        ∧ (operation.after tree).revision = tree.revision
        ∧ (operation.after tree).size = tree.size
        ∧ (operation.after tree).inTransaction = tree.inTransaction)
      ∧ ∀ later : List Operation,
          (∀ next : Operation, (next.run.run ((operation.after tree).edited later)).1
            = (next.run.run (tree.edited later)).1)
          ∧ ((operation.after tree).edited later).commit = (tree.edited later).commit
          ∧ ((operation.after tree).edited later).rollback = (tree.edited later).rollback := by
  rcases Operation.noted_of_refused refused with same | ⟨id, noted⟩
  · rw [same]
    exact ⟨⟨rfl, rfl, rfl, rfl, rfl⟩, fun later => ⟨fun _ => rfl, rfl, rfl⟩⟩
  · rw [noted]
    have same := tree.commit_recordNode id
    have nodes := nodes_of_commit same
    refine ⟨⟨nodes, root_of_commit same, revision_of_commit same, congrArg Array.size nodes, ?_⟩, ?_⟩
    · rcases tree.recordNode_eq id with unchanged | ⟨journal, node, opened, _, _, written⟩
      · rw [unchanged]
      · rw [written, inTransaction, inTransaction, opened]
        rfl
    · intro later
      have edits : ((tree.recordNode id).edited later).commit = (tree.edited later).commit := by
        rw [edited_commit, same, ← edited_commit]
      exact ⟨answer_of_commit edits, edits, tree.rollback_recordNode id later⟩

-- A program of one statement, in an open transaction.
def openProgram : Tree :=
  ((Tree.empty "").edited [.construct (.raw "a"), .push ⟨0⟩ .statement ⟨1⟩]).checkpoint

/-- The program is not one of its own statements, which is found out after it was noted in the
journal. The statement is removed afterwards, and the transaction rolled back or committed. -/
theorem refusal_of_foreign_node :
    ((Operation.removeAt (some ⟨⟨0⟩, .statement⟩) ⟨0⟩).run.run openProgram).1
        = .error (.rejected (.notInSlot ⟨0⟩ ⟨0⟩ .statement))
      ∧ (Operation.removeAt (some ⟨⟨0⟩, .statement⟩) ⟨0⟩).after openProgram ≠ openProgram
      ∧ ((Operation.removeAt (some ⟨⟨0⟩, .statement⟩) ⟨0⟩).after openProgram).nodes
        = openProgram.nodes
      ∧ (((Operation.removeAt (some ⟨⟨0⟩, .statement⟩) ⟨0⟩).after openProgram).edited
          [.remove ⟨1⟩]).commit = (openProgram.edited [.remove ⟨1⟩]).commit
      ∧ (((Operation.removeAt (some ⟨⟨0⟩, .statement⟩) ⟨0⟩).after openProgram).edited
          [.remove ⟨1⟩]).rollback = (openProgram.edited [.remove ⟨1⟩]).rollback := by
  have refused : ((Operation.removeAt (some ⟨⟨0⟩, .statement⟩) ⟨0⟩).run.run openProgram).1
      = .error (.rejected (.notInSlot ⟨0⟩ ⟨0⟩ .statement)) := rfl
  obtain ⟨⟨nodes, _⟩, later⟩ := refusal_changes_nothing openProgram _ refused
  exact ⟨refused, by decide +kernel, nodes, (later [.remove ⟨1⟩]).2⟩

end Tree

end Codemod
