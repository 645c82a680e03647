import Codemod.Proofs.Edit.Placement
import Codemod.Proofs.Edit.Rollback

/-!
What the revision tells of a tree that went through edits and whole transactions. Main statement: the
revision never falls, and where it comes out the same the tree is the one there was, but for new
nodes and the nodes that they took, which nothing had held (`Tree.unchanged_of_revision`).
-/

namespace Codemod

namespace Tree

/-- The nodes there were are as they were, and so are the root and the back-references that were set.
A back-reference that was not set may name a node that is new. -/
structure Unchanged (before after : Tree) : Prop extends Quiet before after where
  size : before.size ≤ after.size
  gained : ∀ {id link}, before.contains id → before.parent? id = none →
    after.parent? id = some link → before.size ≤ link.parent.index ∧ after.contains link.parent

/-- The revision never falls, and tells whether the tree was changed. -/
structure Tells (before after : Tree) : Prop where
  grows : before.revision ≤ after.revision
  unchanged : after.revision = before.revision → before.Unchanged after

theorem unchanged_of_commit {before after : Tree} (same : after.commit = before.commit) :
    before.Unchanged after := by
  have nodes := nodes_of_commit same
  refine ⟨quiet_of_commit same, ?_, ?_⟩
  · exact Nat.le_of_eq (congrArg Array.size nodes.symm)
  · intro id link _ loose named
    rw [parent?, node?, nodes, ← node?, ← parent?, loose] at named
    cases named

theorem Unchanged.contains {before after : Tree} (same : before.Unchanged after) {id : NodeId}
    (inside : before.contains id) : after.contains id :=
  contains_iff.mpr (Nat.lt_of_lt_of_le (contains_iff.mp inside) same.size)

theorem Unchanged.trans {before middle after : Tree} (first : before.Unchanged middle)
    (second : middle.Unchanged after) : before.Unchanged after := by
  refine ⟨first.toQuiet.trans second.toQuiet, Nat.le_trans first.size second.size, ?_⟩
  intro id link inside loose named
  cases between : middle.parent? id with
  | some held =>
      -- It was taken in the first part, and what was set stays in the second.
      cases (second.named id held between).symm.trans named
      obtain ⟨new, present⟩ := first.gained inside loose between
      exact ⟨new, second.contains present⟩
  | none =>
      obtain ⟨new, present⟩ := second.gained (first.contains inside) between named
      exact ⟨Nat.le_trans first.size new, present⟩

theorem tells_of_commit {before after : Tree} (same : after.commit = before.commit) :
    before.Tells after :=
  ⟨Nat.le_of_eq (revision_of_commit same).symm, fun _ => unchanged_of_commit same⟩

theorem tells_of_lt {before after : Tree} (counted : before.revision < after.revision) :
    before.Tells after :=
  ⟨Nat.le_of_lt counted, fun same => absurd same (Nat.ne_of_gt counted)⟩

theorem tells_ordered : Ordered Tells where
  refl _ := tells_of_commit rfl
  trans := by
    intro before middle after first second
    have early := first.grows
    have late := second.grows
    refine ⟨Nat.le_trans early late, fun same => ?_⟩
    exact (first.unchanged (by omega)).trans (second.unchanged (by omega))

variable {tree : Tree}

/-- What a new node takes points at it. -/
theorem gained_adopt {shape : Shape} {children : List (Slot × NodeId)} {id : NodeId} {link : Link}
    (inside : tree.contains id) (loose : tree.parent? id = none)
    (named : ((tree.append { shape }).adopt ⟨tree.size⟩ children).parent? id = some link) :
    link.parent = ⟨tree.size⟩ := by
  rcases parent?_adopt_some named with before | ⟨same, _⟩
  · rw [parent?, node?_append, if_neg (ne_next_of_contains inside), ← parent?, loose] at before
    cases before
  · exact same

theorem tells_alloc (shape : Shape) : (Edit.alloc shape).Along Tells := by
  intro tree
  have steady := steady_alloc shape tree
  -- However many of its children the new node comes to take, the arena is one larger.
  obtain ⟨taken, ends⟩ : ∃ taken, ((Edit.alloc shape).run tree).2
      = (tree.append { shape }).adopt ⟨tree.size⟩ taken := by
    rcases Edit.run_alloc shape tree with finishes | ⟨done, size, index, stops⟩
    · exact ⟨_, congrArg Prod.snd finishes⟩
    · exact ⟨_, congrArg Prod.snd stops⟩
  rw [ends] at steady ⊢
  have size : ((tree.append { shape }).adopt ⟨tree.size⟩ taken).size = tree.size + 1 := by
    rw [(framed_adopt _ _ _).size, append, Tree.size, Array.size_push, Tree.size]
  refine ⟨steady.grows, fun same => ⟨steady.quiet same, by omega, ?_⟩⟩
  intro id link inside loose named
  rw [gained_adopt inside loose named, contains_iff, size]
  exact ⟨Nat.le_refl _, Nat.lt_succ_self _⟩

theorem tells_after {operation : Operation} (answers : operation.Answers tree) :
    tree.Tells (operation.after tree) := by
  rcases operation.course_or_allocates with courses | allocates
  · rcases told_course (courses tree) answers with same | counted
    · exact tells_of_commit same
    · exact tells_of_lt counted
  · exact allocates.along tells_ordered tells_alloc tree

theorem tells_edited {operations : List Operation} (answers : tree.Answers operations) :
    tree.Tells (tree.edited operations) := by
  induction operations generalizing tree with
  | nil => exact tells_ordered.refl tree
  | cons operation rest ih => exact tells_ordered.trans (tells_after answers.1) (ih answers.2)

end Tree

inductive Stage where
  | edit (operation : Operation)
  | committed (operations : List Operation)
  | rolledBack (operations : List Operation)

namespace Stage

def after : Stage → Tree → Tree
  | .edit operation, tree => operation.after tree
  | .committed operations, tree => (tree.checkpoint.edited operations).commit
  | .rolledBack operations, tree => (tree.checkpoint.edited operations).rollback

/-- Edits that are kept are done or refused. Those that are rolled back may also stop part-way, at an
id that the arena does not have. -/
def Answers : Stage → Tree → Prop
  | .edit operation, tree => operation.Answers tree
  | .committed operations, tree => tree.checkpoint.Answers operations
  | .rolledBack _, _ => True

end Stage

namespace Tree

def through (tree : Tree) (stages : List Stage) : Tree :=
  stages.foldl (fun tree stage => stage.after tree) tree

def Completes : Tree → List Stage → Prop
  | _, [] => True
  | tree, stage :: rest => stage.Answers tree ∧ (stage.after tree).Completes rest

variable {tree : Tree}

theorem tells_stage {stage : Stage} (answers : stage.Answers tree) :
    tree.Tells (stage.after tree) := by
  cases stage with
  | edit operation => exact tells_after answers
  | committed operations =>
      have opened : tree.Tells tree.checkpoint := tells_of_commit rfl
      have closed : (tree.checkpoint.edited operations).Tells
          (tree.checkpoint.edited operations).commit := tells_of_commit rfl
      exact tells_ordered.trans opened (tells_ordered.trans (tells_edited answers) closed)
  | rolledBack operations =>
      rw [Stage.after, rollback_edited]
      exact tells_of_commit rfl

theorem tells_through {stages : List Stage} (completes : tree.Completes stages) :
    tree.Tells (tree.through stages) := by
  induction stages generalizing tree with
  | nil => exact tells_ordered.refl tree
  | cons stage rest ih =>
      exact tells_ordered.trans (tells_stage completes.1) (ih completes.2)

theorem revision_stage (tree : Tree) (stage : Stage) :
    tree.revision ≤ (stage.after tree).revision := by
  cases stage with
  | edit operation => exact revision_respected.after operation tree
  | committed operations => exact revision_respected.edited operations tree.checkpoint
  | rolledBack operations =>
      rw [Stage.after, rollback_edited]
      exact Nat.le_refl tree.revision

/-- From any tree, edits and whole transactions never lower the revision. Where it comes out the same
and the edits that were kept have answered, so do the root, all nodes, and all back-references that
were set; a node that had none may have been taken by a new node, and by no other. -/
theorem unchanged_of_revision (tree : Tree) (stages : List Stage) :
    tree.revision ≤ (tree.through stages).revision
      ∧ (tree.Completes stages → (tree.through stages).revision = tree.revision →
        tree.Unchanged (tree.through stages)) := by
  constructor
  · induction stages generalizing tree with
    | nil => exact Nat.le_refl tree.revision
    | cons stage rest ih => exact Nat.le_trans (tree.revision_stage stage) (ih (stage.after tree))
  · intro completes
    exact (tells_through completes).unchanged

-- A program of one statement, and a node beside it.
def besides : Tree :=
  (Tree.empty "").edited
    [.construct (.raw "a"), .push ⟨0⟩ .statement ⟨1⟩, .construct (.raw "b")]

-- The node beside the program is made an argument; the statement is removed and put back by a
-- rollback, after an edit that stopped; it is given a name, which is refused, and its own place.
def detours : List Stage :=
  [.edit (.construct (.argument ⟨2⟩)), .rolledBack [.remove ⟨1⟩, .push ⟨0⟩ .statement ⟨9⟩],
    .committed [.setName ⟨1⟩ "c"], .edit (.replace ⟨1⟩ ⟨1⟩)]

/-- The revision is the same, and all that was set is too. -/
theorem unchanged_of_detours : besides.Completes detours
    ∧ (besides.through detours).revision = besides.revision
    ∧ besides.Unchanged (besides.through detours)
    ∧ (besides.through detours).parent? ⟨2⟩ = some ⟨⟨3⟩, .value⟩ := by
  have completes : besides.Completes detours := ⟨nofun, trivial, ⟨nofun, trivial⟩, nofun, trivial⟩
  have same : (besides.through detours).revision = besides.revision := by decide +kernel
  exact ⟨completes, same, (unchanged_of_revision besides detours).2 completes same,
    by decide +kernel⟩

end Tree

end Codemod
