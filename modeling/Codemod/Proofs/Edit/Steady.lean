import Codemod.Proofs.Edit.Blind
import Codemod.Proofs.Edit.Operation
import Codemod.Proofs.Tree.Reading

/-!
What an equal revision says. Edits never lower the revision, and one that leaves it as it was has at
most added nodes and set back-references where there were none. An edit that stops part-way, at an
id that the arena does not have, is left out: it may have written a slot before it could count.
-/

namespace Codemod

namespace Tree

/-- Nothing changed that printing can tell: the nodes are as they were but for their back-references,
and those that were set are as they were too. -/
structure Quiet (before after : Tree) : Prop where
  source : after.source = before.source
  root : after.root = before.root
  bare : ∀ id node, before.node? id = some node →
    (after.node? id).map Node.bare = some node.bare
  named : ∀ id link, before.parent? id = some link → after.parent? id = some link

theorem quiet_of_commit {before after : Tree} (same : after.commit = before.commit) :
    before.Quiet after := by
  have nodes := nodes_of_commit same
  refine ⟨source_of_commit same, root_of_commit same, ?_, ?_⟩
  · intro id node found
    rw [node?, nodes, ← node?, found, Option.map_some]
  · intro id link named
    rwa [parent?, node?, nodes, ← node?, ← parent?]

theorem Quiet.trans {before middle after : Tree} (first : before.Quiet middle)
    (second : middle.Quiet after) : before.Quiet after := by
  constructor
  · rw [second.source, first.source]
  · rw [second.root, first.root]
  · intro id node found
    obtain ⟨held, still, same⟩ := Option.map_eq_some_iff.mp (first.bare id node found)
    rw [second.bare id held still, same]
  · intro id link named
    exact second.named id link (first.named id link named)

/-- The revision tells changes: it never falls, and where it is the same the tree is too. -/
structure Steady (before after : Tree) : Prop where
  grows : before.revision ≤ after.revision
  quiet : after.revision = before.revision → before.Quiet after

theorem steady_of_lt {before after : Tree} (counted : before.revision < after.revision) :
    before.Steady after :=
  ⟨Nat.le_of_lt counted, fun same => absurd same (Nat.ne_of_gt counted)⟩

theorem steady_of_commit {before after : Tree} (same : after.commit = before.commit) :
    before.Steady after :=
  ⟨Nat.le_of_eq (revision_of_commit same).symm, fun _ => quiet_of_commit same⟩

theorem Steady.trans {before middle after : Tree} (first : before.Steady middle)
    (second : middle.Steady after) : before.Steady after := by
  have early := first.grows
  have late := second.grows
  refine ⟨Nat.le_trans early late, fun same => ?_⟩
  exact (first.quiet (by omega)).trans (second.quiet (by omega))

theorem steady_ordered : Ordered Steady where
  refl _ := steady_of_commit rfl
  trans := Steady.trans

variable {tree : Tree}

theorem revision_record (tree : Tree) (id : NodeId) (former : Node → Undo) :
    (tree.record id former).revision = tree.revision :=
  revision_of_commit (tree.commit_record id former)

theorem revision_respected : Respected fun before after => before.revision ≤ after.revision where
  refl _ := Nat.le_refl _
  trans := Nat.le_trans
  bump tree := Nat.le_succ tree.revision
  recordNode tree id := Nat.le_of_eq (tree.revision_record id _).symm
  setParent tree id _ := Nat.le_of_eq (tree.revision_record id _).symm
  setRoot tree id _ := Nat.le_of_eq (tree.revision_record id _).symm
  append _ _ := Nat.le_refl _
  setData tree id _ _ _ _ _ := Nat.le_of_eq (tree.revision_record id _).symm
  setShape tree id _ _ _ _ _ _ _ _ _ := Nat.le_of_eq (tree.revision_record id _).symm

theorem node?_setParent (tree : Tree) (id : NodeId) (link : Option Link) (other : NodeId) :
    (tree.setParent id link).node? other =
      if id.index = other.index then (tree.node? other).map fun node => { node with parent := link }
      else tree.node? other := by
  rw [setParent, node?, Array.getElem?_modify, recordLink, record_nodes]
  rfl

theorem quiet_setParent {id : NodeId} (loose : tree.parent? id = none) (link : Option Link) :
    tree.Quiet (tree.setParent id link) := by
  have noted : (tree.recordLink id).commit = tree.commit := tree.commit_record id _
  refine ⟨(source_of_commit noted : _), (root_of_commit noted : _), ?_, ?_⟩
  · intro other node found
    rw [node?_setParent, found]
    split <;> rfl
  · intro other held named
    have apart : id.index ≠ other.index := by
      intro same
      rw [show id = other from congrArg NodeId.mk same, named] at loose
      cases loose
    rw [parent?, node?_setParent, if_neg apart]
    exact named

theorem steady_relink (tree : Tree) (id : NodeId) (link : Option Link) :
    tree.Steady (tree.relink id link) := by
  have kept : (tree.setParent id link).revision = tree.revision := tree.revision_record id _
  unfold relink
  dsimp only
  split
  · exact steady_ordered.refl tree
  · cases former : tree.parent? id with
    | some held =>
        -- A node that is moved counts, one that nothing held does not.
        apply steady_of_lt
        exact Nat.lt_succ_of_le (Nat.le_of_eq kept.symm)
    | none => exact ⟨Nat.le_of_eq kept.symm, fun _ => quiet_setParent former link⟩

theorem steady_append (tree : Tree) (node : Node) : tree.Steady (tree.append node) := by
  have old : ∀ id held, tree.node? id = some held → (tree.append node).node? id = some held := by
    intro id held found
    obtain ⟨inside, same⟩ := Array.getElem?_eq_some_iff.mp found
    rw [append, node?, Array.getElem?_push_lt inside, same]
  refine ⟨Nat.le_refl _, fun _ => ⟨rfl, rfl, ?_, ?_⟩⟩
  · intro id held found
    rw [old id held found, Option.map_some]
  · intro id link named
    obtain ⟨held, found, same⟩ := Option.bind_eq_some_iff.mp named
    rw [parent?, old id held found]
    exact same

theorem steady_adopt (tree : Tree) (parent : NodeId) (children : List (Slot × NodeId)) :
    tree.Steady (tree.adopt parent children) := by
  apply steady_ordered.foldl
  intro tree child
  exact tree.steady_relink child.2 _

theorem steady_alloc (shape : Shape) : (Edit.alloc shape).Along Steady := by
  intro tree
  have added := tree.steady_append { shape }
  rcases Edit.run_alloc shape tree with finishes | ⟨done, size, index, stops⟩
  · rw [finishes]
    exact added.trans (steady_adopt _ _ _)
  · rw [stops]
    exact added.trans (steady_adopt _ _ _)

end Tree

def Operation.Answers (operation : Operation) (tree : Tree) : Prop :=
  ∀ size index, (operation.run.run tree).1 ≠ .error (.missing size index)

def Tree.Answers (tree : Tree) : List Operation → Prop
  | [] => True
  | operation :: rest => operation.Answers tree ∧ (operation.after tree).Answers rest

namespace Tree

variable {tree : Tree}

/-- An edit that answers has been counted, or has left the tree alone. -/
theorem told_course {result : Except Fault Unit × Tree} (ended : Edit.Course tree result)
    (answers : ∀ size index, result.1 ≠ .error (.missing size index)) :
    result.2.commit = tree.commit ∨ tree.revision < result.2.revision := by
  cases ended with
  | idle | refused => exact Or.inl rfl
  | opened id => exact Or.inl (tree.commit_recordNode id)
  | rewritten found before after =>
      right
      exact Nat.lt_succ_of_le (revision_respected.setData tree _ _ _ found before after)
  | refilled found holds change =>
      right
      exact Nat.lt_succ_of_le (revision_respected.refill found holds change _ _)
  | rerooted found =>
      right
      exact Nat.lt_succ_of_le (revision_respected.trans (revision_respected.setRoot tree _ found)
        (revision_respected.unlink _ _ _))
  -- These write before they stop, and never come to count it.
  | absent size index | halted _ _ _ _ _ size index | uprooted _ size index =>
      exact absurd rfl (answers size index)

theorem steady_course {result : Except Fault Unit × Tree} (ended : Edit.Course tree result)
    (answers : ∀ size index, result.1 ≠ .error (.missing size index)) : tree.Steady result.2 := by
  rcases told_course ended answers with same | counted
  · exact steady_of_commit same
  · exact steady_of_lt counted

theorem steady_after {operation : Operation} (answers : operation.Answers tree) :
    tree.Steady (operation.after tree) := by
  rcases operation.course_or_allocates with courses | allocates
  · exact steady_course (courses tree) answers
  · exact allocates.along steady_ordered steady_alloc tree

theorem steady_edited {operations : List Operation} (answers : tree.Answers operations) :
    tree.Steady (tree.edited operations) := by
  induction operations generalizing tree with
  | nil => exact steady_ordered.refl tree
  | cons operation rest ih => exact (steady_after answers.1).trans (ih answers.2)

end Tree

end Codemod
