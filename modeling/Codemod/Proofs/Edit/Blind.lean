import Codemod.Proofs.Edit.Operation

/-!
Edits do not look at the journal, they only add to it. A change of the journal that goes along with
every entry made there can be made before an edit or after it: the answer is the same, and so is the
tree. Main statement: this holds of every edit (`Operation.ignores`). Dropping the journal is one such
change, and putting further entries under those that are there is another.
-/

namespace Codemod

open Step

variable {α β : Type}

namespace Tree

@[simp] theorem parent?_commit (tree : Tree) (id : NodeId) :
    tree.commit.parent? id = tree.parent? id := rfl

theorem nodes_of_commit {tree other : Tree} (same : tree.commit = other.commit) :
    tree.nodes = other.nodes := by
  have committed : tree.commit.nodes = other.commit.nodes := by rw [same]
  exact committed

theorem commit_of_closed {tree : Tree} (closed : tree.journal = none) : tree.commit = tree := by
  rw [commit, ← closed]

theorem source_of_commit {tree other : Tree} (same : tree.commit = other.commit) :
    tree.source = other.source := by
  have committed : tree.commit.source = other.commit.source := by rw [same]
  exact committed

theorem root_of_commit {tree other : Tree} (same : tree.commit = other.commit) :
    tree.root = other.root := by
  have committed : tree.commit.root = other.commit.root := by rw [same]
  exact committed

theorem revision_of_commit {tree other : Tree} (same : tree.commit = other.commit) :
    tree.revision = other.revision := by
  have committed : tree.commit.revision = other.commit.revision := by rw [same]
  exact committed

@[simp] theorem commit_record (tree : Tree) (id : NodeId) (former : Node → Undo) :
    (tree.record id former).commit = tree.commit := by
  unfold record
  split
  · split <;> rfl
  · rfl

@[simp] theorem commit_recordNode (tree : Tree) (id : NodeId) :
    (tree.recordNode id).commit = tree.commit :=
  tree.commit_record id _

def rejournal (tree : Tree) (change : Option Journal → Option Journal) : Tree :=
  { tree with journal := change tree.journal }

-- The change goes along with entries: it can be made before one is made or after it.
def GoesAlong (change : Option Journal → Option Journal) : Prop :=
  ∀ (tree : Tree) id former,
    (tree.rejournal change).record id former = (tree.record id former).rejournal change

theorem goesAlong_commit : GoesAlong fun _ => none := by
  intro tree id former
  exact (tree.commit_record id former).symm

def onto (older : List Undo) : Option Journal → Option Journal :=
  Option.map fun journal => { journal with undo := journal.undo ++ older }

theorem goesAlong_onto (older : List Undo) : GoesAlong (onto older) := by
  intro tree id former
  have reads : (tree.rejournal (onto older)).node? id = tree.node? id := rfl
  cases opened : tree.journal with
  | none => simp [record, rejournal, onto, opened]
  | some journal =>
      have still : (tree.rejournal (onto older)).journal
          = some { journal with undo := journal.undo ++ older } := by
        rw [rejournal, opened]
        rfl
      rw [record, still, reads, record, opened]
      cases tree.node? id with
      | none => rfl
      | some node =>
          dsimp only
          split <;> simp [rejournal, onto, opened]

namespace GoesAlong

variable {change : Option Journal → Option Journal} (along : GoesAlong change)
include along

theorem recordNode (tree : Tree) (id : NodeId) :
    (tree.rejournal change).recordNode id = (tree.recordNode id).rejournal change :=
  along tree id _

theorem setParent (tree : Tree) (id : NodeId) (link : Option Link) :
    (tree.rejournal change).setParent id link = (tree.setParent id link).rejournal change := by
  have noted : (tree.rejournal change).recordLink id = (tree.recordLink id).rejournal change :=
    along tree id _
  rw [Tree.setParent, noted]
  rfl

theorem setRoot (tree : Tree) (id : NodeId) :
    (tree.rejournal change).setRoot id = (tree.setRoot id).rejournal change := by
  rw [Tree.setRoot, along.setParent]
  rfl

theorem unlink (tree : Tree) (id : NodeId) (expected : Option Link) :
    (tree.rejournal change).unlink id expected = (tree.unlink id expected).rejournal change := by
  have named : (tree.rejournal change).parent? id = tree.parent? id := rfl
  unfold Tree.unlink
  rw [named]
  split
  · exact along.setParent tree id none
  · rfl

theorem relink (tree : Tree) (id : NodeId) (link : Option Link) :
    (tree.rejournal change).relink id link = (tree.relink id link).rejournal change := by
  have named : (tree.rejournal change).parent? id = tree.parent? id := rfl
  unfold Tree.relink
  dsimp only
  rw [named]
  split
  · rfl
  · rw [along.setParent]
    split <;> rfl

end GoesAlong

end Tree

namespace Edit

/-- The step answers the same on a tree whose journal was changed, and comes to the same tree, with
that change. -/
def Ignores (change : Option Journal → Option Journal) (edit : Edit α) : Prop :=
  ∀ tree, edit.run (tree.rejournal change)
    = ((edit.run tree).1, (edit.run tree).2.rejournal change)

-- The journal plays no part in what the step answers and does.
def Blind (edit : Edit α) : Prop :=
  ∀ tree, edit.run tree.commit = ((edit.run tree).1, (edit.run tree).2.commit)

theorem Ignores.blind {edit : Edit α} (ignores : Ignores (fun _ => none) edit) : Blind edit :=
  ignores

section

variable {change : Option Journal → Option Journal}

theorem ignores_bind {edit : Edit α} {next : α → Edit β} (first : Ignores change edit)
    (second : ∀ value, Ignores change (next value)) : Ignores change (edit >>= next) := by
  intro tree
  have same := first tree
  generalize ran : edit.run tree = result at same
  rcases result with ⟨fault | value, after⟩
  · rw [run_bind_error ran, run_bind_error same]
  · rw [run_bind_ok ran, run_bind_ok same]
    exact second value after

theorem ignores_pure (value : α) : Ignores change (pure value) := fun _ => rfl

theorem ignores_reject (error : TreeError) : Ignores change (reject error : Edit α) :=
  fun _ => rfl

theorem ignores_modify {alter : Tree → Tree}
    (commutes : ∀ tree, (alter tree).rejournal change = alter (tree.rejournal change)) :
    Ignores change (modify alter : Edit PUnit) := by
  intro tree
  rw [run_modify, run_modify, commutes]

theorem ignores_node (id : NodeId) : Ignores change (node id) := by
  intro tree
  cases found : tree.node? id with
  | some held =>
      have again : (tree.rejournal change).node? id = some held := found
      rw [run_node_some found, run_node_some again]
  | none =>
      have again : (tree.rejournal change).node? id = none := found
      rw [run_node_none found, run_node_none again]
      rfl

theorem ignores_bump : Ignores change bump :=
  ignores_modify fun _ => rfl

theorem ignores_setShape (id : NodeId) (shape : Shape) :
    Ignores change (modify fun tree : Tree => tree.setShape id shape) :=
  ignores_modify fun _ => rfl

theorem ignores_forM {step : α → Edit Unit} (each : ∀ value, Ignores change (step value))
    (values : List α) : Ignores change (values.forM step) := by
  induction values with
  | nil => exact ignores_pure ()
  | cons value rest ih => exact ignores_bind (each value) fun _ => ih

section

variable (along : Tree.GoesAlong change)
include along

theorem ignores_unlink (id : NodeId) (expected : Option Link) :
    Ignores change (unlink id expected) :=
  ignores_bind (ignores_node id) fun _ => ignores_modify fun tree => (along.unlink tree id expected).symm

theorem ignores_relink (id : NodeId) (link : Option Link) : Ignores change (relink id link) :=
  ignores_bind (ignores_node id) fun _ => ignores_modify fun tree => (along.relink tree id link).symm

theorem ignores_openSlot (link : Link) : Ignores change (openSlot link) := by
  refine ignores_bind (ignores_node _) fun held =>
    ignores_bind (ignores_modify fun tree => (along.recordNode tree _).symm) fun _ => ?_
  split
  · exact ignores_pure _
  · exact ignores_reject _

theorem ignores_alloc (shape : Shape) : Ignores change (alloc shape) := by
  have adopts : ∀ id : NodeId, Ignores change (shape.children.forM fun child =>
      relink child.2 (some ⟨id, child.1⟩)) := by
    intro id
    apply ignores_forM
    intro child
    exact ignores_relink along child.2 _
  intro tree
  -- The place of the new node is read off the tree, and is the same in both runs.
  rw [alloc, run_bind_ok (run_get _), run_bind_ok (run_get _)]
  exact ignores_bind (ignores_modify fun _ => rfl) (fun _ =>
    ignores_bind (adopts ⟨tree.size⟩) fun _ => ignores_pure _) tree

theorem ignores_rewrite (id : NodeId) (former shape : Shape) :
    Ignores change (do
      unless former = shape do
        modify fun tree : Tree => ((tree.recordNode id).setData id shape).bump) := by
  split
  · exact ignores_pure _
  · refine ignores_modify fun tree => ?_
    rw [along.recordNode]
    rfl

theorem ignores_setName (id : NodeId) (value : String) : Ignores change (setName id value) := by
  refine ignores_bind (ignores_node id) fun held => ?_
  cases shape : held.shape with
  | name text => exact ignores_rewrite along id _ _
  | «variable» text => exact ignores_rewrite along id _ _
  | _ => exact ignores_reject _

theorem ignores_setLeaf (id : NodeId) (shape : Shape) : Ignores change (setLeaf id shape) := by
  unfold setLeaf
  split
  · refine ignores_bind (ignores_node id) fun held => ?_
    dsimp only
    split
    · exact ignores_rewrite along id _ _
    · exact ignores_reject _
  · exact ignores_reject _

theorem ignores_replaceAt (link : Option Link) (old new : NodeId) :
    Ignores change (replaceAt link old new) := by
  unfold replaceAt
  split
  · exact ignores_pure ()
  cases link with
  | none =>
      intro tree
      -- The tree that is read here also says where the root goes, so both runs are followed.
      dsimp only
      rw [run_bind_ok (run_get tree), run_bind_ok (run_get (tree.rejournal change))]
      have sameRoot : (tree.rejournal change).root = tree.root := rfl
      rw [sameRoot]
      split
      · rfl
      · have reads := @ignores_node change new tree
        rcases run_node new tree with ⟨held, found, ran⟩ | ran
        · rw [ran] at reads
          rw [run_bind_ok ran, run_bind_ok reads, run_bind_ok (run_set ..), run_bind_ok (run_set ..),
            along.setRoot]
          exact ignores_bind (ignores_unlink along old none) (fun _ => ignores_bump)
            (tree.setRoot new)
        · rw [ran] at reads
          rw [run_bind_error ran, run_bind_error reads]
  | some link =>
      refine ignores_bind (ignores_openSlot along link) fun opened => ?_
      dsimp only
      split
      · exact ignores_reject _
      · exact ignores_bind (ignores_setShape _ _) fun _ =>
          ignores_bind (ignores_unlink along _ _) fun _ =>
            ignores_bind (ignores_relink along _ _) fun _ => ignores_bump

theorem ignores_removeAt (link : Option Link) (id : NodeId) : Ignores change (removeAt link id) := by
  cases link with
  | none => exact ignores_reject _
  | some link =>
      unfold removeAt
      dsimp only
      split
      · exact ignores_reject _
      · refine ignores_bind (ignores_openSlot along link) fun opened => ?_
        split
        · exact ignores_reject _
        · exact ignores_bind (ignores_setShape _ _) fun _ =>
            ignores_bind (ignores_unlink along _ _) fun _ => ignores_bump

theorem ignores_spliceAt (link : Option Link) (id : NodeId) (replacement : List NodeId) :
    Ignores change (spliceAt link id replacement) := by
  cases link with
  | none => exact ignores_reject _
  | some link =>
      unfold spliceAt
      dsimp only
      split
      · exact ignores_reject _
      · refine ignores_bind (ignores_openSlot along link) fun opened => ?_
        split
        · split
          · exact ignores_reject _
          · refine ignores_bind (ignores_setShape _ _) fun _ => ?_
            have enter : Ignores change (do
                replacement.forM fun id => relink id (some link)
                bump) :=
              ignores_bind (ignores_forM (fun id => ignores_relink along id (some link)) replacement)
                fun _ => ignores_bump
            split
            · exact ignores_bind (ignores_unlink along _ _) fun _ => enter
            · exact enter
        · exact ignores_reject _

theorem ignores_insert (parent : NodeId) (slot : Slot) (index : Nat) (id : NodeId) :
    Ignores change (insert parent slot index id) := by
  unfold insert
  split
  · exact ignores_reject _
  · refine ignores_bind (ignores_openSlot along _) fun opened => ?_
    obtain ⟨shape, storage⟩ := opened
    cases storage with
    | many held =>
        dsimp only
        split
        · exact ignores_reject _
        · exact ignores_bind (ignores_setShape _ _) fun _ =>
            ignores_bind (ignores_relink along _ _) fun _ => ignores_bump
    | _ => exact ignores_reject _

theorem ignores_setOptional (parent : NodeId) (slot : Slot) (id : Option NodeId) :
    Ignores change (setOptional parent slot id) := by
  have each : ∀ (step : NodeId → Edit Unit), (∀ id, Ignores change (step id)) →
      ∀ value : Option NodeId, Ignores change (value.forM step) := by
    intro step each value
    cases value with
    | none => exact ignores_pure ()
    | some id => exact each id
  unfold setOptional
  split
  · exact ignores_bind (ignores_node parent) fun held => ignores_reject _
  · refine ignores_bind (ignores_openSlot along _) fun opened => ?_
    obtain ⟨shape, storage⟩ := opened
    cases storage with
    | maybe former =>
        dsimp only
        split
        · exact ignores_pure ()
        · exact ignores_bind (ignores_setShape _ _) fun _ =>
            ignores_bind (each _ (fun _ => ignores_unlink along _ _) _) fun _ =>
              ignores_bind (each _ (fun _ => ignores_relink along _ _) _) fun _ => ignores_bump
    | _ => exact ignores_reject _

end

end

theorem blind_replaceAt (link : Option Link) (old new : NodeId) : Blind (replaceAt link old new) :=
  (ignores_replaceAt Tree.goesAlong_commit link old new).blind

theorem blind_removeAt (link : Option Link) (id : NodeId) : Blind (removeAt link id) :=
  (ignores_removeAt Tree.goesAlong_commit link id).blind

theorem blind_spliceAt (link : Option Link) (id : NodeId) (replacement : List NodeId) :
    Blind (spliceAt link id replacement) :=
  (ignores_spliceAt Tree.goesAlong_commit link id replacement).blind

end Edit

section

variable {change : Option Journal → Option Journal} (along : Tree.GoesAlong change)
include along

theorem Edit.Allocates.ignores {edit : Edit α} (allocates : edit.Allocates) :
    edit.Ignores change := by
  induction allocates with
  | pure value => exact Edit.ignores_pure value
  | alloc shape => exact Edit.ignores_alloc along shape
  | bind _ _ first second => exact Edit.ignores_bind first second

theorem Operation.ignores (operation : Operation) : Edit.Ignores change operation.run := by
  cases operation with
  | alloc shape =>
      exact Edit.ignores_bind (Edit.ignores_alloc along shape) fun _ => Edit.ignores_pure ()
  | construct construction =>
      exact Edit.ignores_bind (construction.allocates.ignores along) fun _ => Edit.ignores_pure ()
  | setName id value => exact Edit.ignores_setName along id value
  | setLeaf id shape => exact Edit.ignores_setLeaf along id shape
  | replace old new =>
      exact Edit.ignores_bind (Edit.ignores_node old) fun held =>
        Edit.ignores_replaceAt along held.parent old new
  | replaceAt link old new => exact Edit.ignores_replaceAt along link old new
  | remove id =>
      exact Edit.ignores_bind (Edit.ignores_node id) fun held =>
        Edit.ignores_removeAt along held.parent id
  | removeAt link id => exact Edit.ignores_removeAt along link id
  | spliceAt link id replacement => exact Edit.ignores_spliceAt along link id replacement
  | insert parent slot index id => exact Edit.ignores_insert along parent slot index id
  | push parent slot id =>
      refine Edit.ignores_bind (Edit.ignores_node parent) fun _ tree => ?_
      rw [run_bind_ok (run_get _), run_bind_ok (run_get _)]
      exact Edit.ignores_insert along parent slot _ id tree
  | setOptional parent slot id => exact Edit.ignores_setOptional along parent slot id

theorem Tree.edited_rejournal (tree : Tree) (operations : List Operation) :
    (tree.rejournal change).edited operations = (tree.edited operations).rejournal change := by
  induction operations generalizing tree with
  | nil => rfl
  | cons operation rest ih =>
      have after : operation.after (tree.rejournal change)
          = (operation.after tree).rejournal change :=
        congrArg Prod.snd (operation.ignores along tree)
      rw [Tree.edited_cons, Tree.edited_cons, after, ih]

end

end Codemod
