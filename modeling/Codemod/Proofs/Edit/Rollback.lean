import Codemod.Proofs.Edit.Blind
import Codemod.Proofs.Edit.Operation

/-!
Rolling back. Seen at one index of the arena, the journal is a list of former values of that node,
and rolling back leaves the oldest of each. No edit changes what rolling back leads to, so it leads
to the tree of the checkpoint after any history of edits.
-/

namespace Codemod

-- A former value put back into the node at an index, if it is that node's.
def Undo.back (index : Nat) (node : Node) : Undo → Node
  | .node id shape touched => if id.index = index then { node with shape, touched } else node
  | .link id parent => if id.index = index then { node with parent } else node

def Journal.former (journal : Journal) (index : Nat) (node : Node) : Node :=
  journal.undo.foldl (Undo.back index) node

namespace Tree

theorem getElem?_restore (nodes : Array Node) (entry : Undo) (index : Nat) :
    (restore nodes entry)[index]? = nodes[index]?.map fun node => entry.back index node := by
  cases entry with
  | node id shape touched =>
      rw [restore, Array.getElem?_modify]
      by_cases here : id.index = index
      · simp [Undo.back, here]
      · simp [Undo.back, here]
  | link id link =>
      rw [restore, Array.getElem?_modify]
      by_cases here : id.index = index
      · simp [Undo.back, here]
      · simp [Undo.back, here]

theorem getElem?_foldl_restore (undo : List Undo) (nodes : Array Node) (index : Nat) :
    (undo.foldl restore nodes)[index]? = nodes[index]?.map (undo.foldl (Undo.back index)) := by
  induction undo generalizing nodes with
  | nil => simp
  | cons entry rest ih =>
      rw [List.foldl_cons, ih, getElem?_restore, Option.map_map]
      rfl

theorem size_restore (nodes : Array Node) (entry : Undo) :
    (restore nodes entry).size = nodes.size := by
  cases entry <;> simp [restore]

theorem size_foldl_restore (undo : List Undo) (nodes : Array Node) :
    (undo.foldl restore nodes).size = nodes.size := by
  induction undo generalizing nodes with
  | nil => rfl
  | cons entry rest ih => rw [List.foldl_cons, ih, size_restore]

/-- The journal of a transaction is kept, with the former values of all nodes that are there. -/
structure Recalls (before after : Tree) : Prop where
  source : after.source = before.source
  grows : before.size ≤ after.size
  journals : ∀ journal, before.journal = some journal →
    ∃ later, after.journal = some later ∧ later.size = journal.size ∧ later.root = journal.root
      ∧ later.revision = journal.revision
      ∧ ∀ index < journal.size, index < before.size → after.nodes[index]?.map (later.former index)
        = before.nodes[index]?.map (journal.former index)

theorem recalls_trans {before middle after : Tree} (first : Recalls before middle)
    (second : Recalls middle after) : Recalls before after where
  source := second.source.trans first.source
  grows := Nat.le_trans first.grows second.grows
  journals := by
    intro journal opened
    obtain ⟨later, still, size, root, revision, former⟩ := first.journals journal opened
    obtain ⟨last, kept, lastSize, lastRoot, lastRevision, lastFormer⟩ := second.journals later still
    refine ⟨last, kept, lastSize.trans size, lastRoot.trans root, lastRevision.trans revision, ?_⟩
    intro index inside present
    rw [← size] at inside
    rw [lastFormer index inside (Nat.lt_of_lt_of_le present first.grows)]
    exact former index (size ▸ inside) present

theorem recalls_of_nodes {before after : Tree} (source : after.source = before.source)
    (nodes : after.nodes = before.nodes) (journal : after.journal = before.journal) :
    Recalls before after where
  source := source
  grows := by simp [size, nodes]
  journals opened found := ⟨opened, journal.trans found, rfl, rfl, rfl, by simp [nodes]⟩

/-- A change of one node that its entry in the journal takes back. -/
theorem recalls_alter (tree : Tree) (id : NodeId) (entry : Node → Undo) (alter : Node → Node)
    (reverts : ∀ node, (entry node).back id.index (alter node) = node)
    (elsewhere : ∀ node other index, index ≠ id.index → (entry node).back index other = other) :
    Recalls tree
      { tree.record id entry with
        nodes := (tree.record id entry).nodes.modify id.index alter } := by
  have unchanged := tree.record_nodes id entry
  constructor
  · have texts := source_of_commit (tree.commit_record id entry)
    exact texts
  · simp [size, unchanged]
  · intro journal opened
    simp only [unchanged, Array.getElem?_modify]
    cases found : tree.node? id with
    | none =>
        -- Where the arena has no such node there is nothing to change either.
        have absent : tree.nodes[id.index]? = none := found
        refine ⟨journal, by simp [record, opened, found], rfl, rfl, rfl, ?_⟩
        intro index _ _
        split
        · next here => simp [← here, absent]
        · rfl
    | some node =>
        have present : tree.nodes[id.index]? = some node := found
        by_cases older : id.index < journal.size
        · refine ⟨{ journal with undo := entry node :: journal.undo },
            by simp [record, opened, found, older], rfl, rfl, rfl, ?_⟩
          intro index _ _
          split
          · next here => simp [← here, present, Journal.former, reverts]
          · next other =>
              have apart : index ≠ id.index := fun equal => other equal.symm
              have skips : Journal.former { journal with undo := entry node :: journal.undo } index
                  = journal.former index := by
                funext value
                simp only [Journal.former, List.foldl_cons, elsewhere node value index apart]
              rw [skips]
        · refine ⟨journal, by simp [record, opened, found, older], rfl, rfl, rfl, ?_⟩
          intro index inside _
          have other : ¬ id.index = index := by omega
          rw [if_neg other]

theorem recalls_recordNode (tree : Tree) (id : NodeId) : Recalls tree (tree.recordNode id) := by
  have noted := tree.recalls_alter id (fun node => .node id node.shape node.touched)
    (fun node => node) (fun node => by simp [Undo.back])
    (fun node other index apart => by simp [Undo.back, apart.symm])
  have still : ∀ nodes : Array Node, nodes.modify id.index (fun node => node) = nodes := by
    intro nodes
    apply Array.ext_getElem?
    intro index
    rw [Array.getElem?_modify]
    split <;> simp
  rwa [still] at noted

theorem recalls_setShape (tree : Tree) (id : NodeId) (shape : Shape) :
    Recalls tree ((tree.recordNode id).setShape id shape) :=
  tree.recalls_alter id (fun node => .node id node.shape node.touched)
    (fun node => { node with shape }) (fun node => by simp [Undo.back])
    (fun node other index apart => by simp [Undo.back, apart.symm])

theorem recalls_setData (tree : Tree) (id : NodeId) (shape : Shape) :
    Recalls tree ((tree.recordNode id).setData id shape) :=
  tree.recalls_alter id (fun node => .node id node.shape node.touched)
    (fun node => { node with shape, touched := true }) (fun node => by simp [Undo.back])
    (fun node other index apart => by simp [Undo.back, apart.symm])

theorem recalls_setParent (tree : Tree) (id : NodeId) (link : Option Link) :
    Recalls tree (tree.setParent id link) :=
  tree.recalls_alter id (fun node => .link id node.parent)
    (fun node => { node with parent := link }) (fun node => by simp [Undo.back])
    (fun node other index apart => by simp [Undo.back, apart.symm])

theorem recalls_append (tree : Tree) (node : Node) : Recalls tree (tree.append node) where
  source := rfl
  grows := by simp [size, append]
  journals := by
    intro journal opened
    refine ⟨journal, opened, rfl, rfl, rfl, ?_⟩
    intro index _ older
    have older : index < tree.nodes.size := older
    rw [append, Array.getElem?_push_lt older, Array.getElem?_eq_getElem older]

theorem recalls_respected : Respected Recalls where
  refl _ := recalls_of_nodes rfl rfl rfl
  trans := recalls_trans
  bump _ := recalls_of_nodes rfl rfl rfl
  recordNode := recalls_recordNode
  setParent := recalls_setParent
  setRoot tree id _ := recalls_trans (tree.recalls_setParent id none) (recalls_of_nodes rfl rfl rfl)
  append tree shape := tree.recalls_append { shape }
  setData tree id _ shape _ _ _ := tree.recalls_setData id shape
  setShape tree id _ _ _ _ _ _ _ _ _ := tree.recalls_setShape id _

/-- A transaction is open, and its checkpoint was made in an arena not larger than this one. -/
def Recording (tree : Tree) : Prop :=
  ∃ journal, tree.journal = some journal ∧ journal.size ≤ tree.size

-- Rolling back leads to the same tree before and after.
def SameRollback (before after : Tree) : Prop :=
  before.Recording → after.Recording ∧ after.rollback = before.rollback

theorem Recalls.sameRollback {before after : Tree} (recalls : Recalls before after) :
    SameRollback before after := by
  rintro ⟨journal, opened, fits⟩
  obtain ⟨later, still, sameSize, root, revision, former⟩ := recalls.journals journal opened
  have grows := recalls.grows
  have fitsAfter : later.size ≤ after.size := by omega
  refine ⟨⟨later, still, fitsAfter⟩, ?_⟩
  -- Rolling back cuts the arena to its size at the checkpoint, so only nodes below that count.
  have nodes : (later.undo.foldl restore after.nodes).extract 0 later.size
      = (journal.undo.foldl restore before.nodes).extract 0 journal.size := by
    apply Array.ext_getElem?
    intro index
    unfold Tree.size at fits fitsAfter
    rw [sameSize] at fitsAfter
    simp only [Array.getElem?_extract, size_foldl_restore, getElem?_foldl_restore, sameSize,
      Nat.zero_add, Nat.min_eq_left fits, Nat.min_eq_left fitsAfter]
    split
    · next inside =>
        have below : index < journal.size := by omega
        exact former index below (Nat.lt_of_lt_of_le below fits)
    · rfl
  simp only [rollback, opened, still, recalls.source, root, revision, nodes]

theorem sameRollback_trans {before middle after : Tree} (first : SameRollback before middle)
    (second : SameRollback middle after) : SameRollback before after := by
  intro recording
  obtain ⟨still, back⟩ := first recording
  obtain ⟨later, again⟩ := second still
  exact ⟨later, again.trans back⟩

theorem sameRollback_respected : Respected SameRollback :=
  recalls_respected.weaken ⟨fun _ recording => ⟨recording, rfl⟩, sameRollback_trans⟩
    Recalls.sameRollback

theorem closed_edits : Respected fun before after => before.journal = none → after.journal = none where
  refl _ := id
  trans first second := second ∘ first
  bump _ := id
  recordNode tree id closed := by
    rw [recordNode, record, closed]
    exact closed
  setParent tree id link closed := by
    rw [setParent, recordLink, record, closed]
    exact closed
  setRoot tree id _ closed := by
    rw [setRoot, setParent, recordLink, record, closed]
    exact closed
  append _ _ := id
  setData tree id _ shape _ _ _ closed := by
    rw [recordNode, record, closed]
    exact closed
  setShape tree id _ _ _ _ _ _ _ _ _ closed := by
    rw [recordNode, record, closed]
    exact closed

theorem checkpoint_recording (tree : Tree) : tree.checkpoint.Recording :=
  ⟨_, rfl, Nat.le_refl _⟩

theorem checkpoint_rollback (tree : Tree) : tree.checkpoint.rollback = tree.commit := by
  simp [checkpoint, rollback, commit, size]

theorem rollback_closed (tree : Tree) : tree.rollback.journal = none := by
  unfold rollback
  split
  · next closed => exact closed
  · rfl

theorem rollback_of_closed {tree : Tree} (closed : tree.journal = none) : tree.rollback = tree := by
  rw [rollback, closed]

theorem rollback_edited (tree : Tree) (operations : List Operation) :
    (tree.checkpoint.edited operations).rollback = tree.commit := by
  have restored := (sameRollback_respected.edited operations tree.checkpoint
    tree.checkpoint_recording).2
  rw [restored, checkpoint_rollback]

/-- Whatever is edited after a checkpoint, and however the edits end, rolling back gives the tree
of the checkpoint: arena, back-references, root and revision, with no transaction open. -/
theorem rollback_after_edits (tree : Tree) (operations : List Operation)
    (closed : tree.journal = none) : (tree.checkpoint.edited operations).rollback = tree := by
  rw [rollback_edited, commit, ← closed]

/-- A new root, and a node pushed that the arena does not have. -/
theorem rollback_after_new_root : (Tree.empty "").journal = none ∧
    ((Tree.empty "").checkpoint.edited
      [.construct (.raw "x"), .replace ⟨0⟩ ⟨1⟩, .push ⟨0⟩ .statement ⟨7⟩]).rollback
      = Tree.empty "" :=
  ⟨rfl, rollback_after_edits _ _ rfl⟩

/-- A property of the nodes, the root and the text of a tree that every edit keeps. -/
structure Lasting (P : Tree → Prop) : Prop where
  of_commit : ∀ {before after : Tree}, after.commit = before.commit → P before → P after
  after : ∀ {tree : Tree} (operation : Operation), P tree → P (operation.after tree)

/-- The tree has a property, and will have it where it is rolled back. -/
structure Kept (P : Tree → Prop) (tree : Tree) : Prop where
  now : P tree
  back : P tree.rollback
  transaction : tree.journal = none ∨ tree.Recording

namespace Kept

variable {P : Tree → Prop} {tree : Tree}

theorem of_closed (holds : P tree) (closed : tree.journal = none) : tree.Kept P :=
  ⟨holds, by rwa [rollback_of_closed closed], Or.inl closed⟩

theorem edited (lasting : Lasting P) (kept : tree.Kept P) (operation : Operation) :
    (operation.after tree).Kept P := by
  have holds := lasting.after operation kept.now
  rcases kept.transaction with closed | recording
  · exact of_closed holds (closed_edits.after operation tree closed)
  · obtain ⟨still, back⟩ := sameRollback_respected.after operation tree recording
    exact ⟨holds, back ▸ kept.back, Or.inr still⟩

theorem checkpoint (lasting : Lasting P) (kept : tree.Kept P) : tree.checkpoint.Kept P := by
  have committed := @Lasting.of_commit P lasting tree tree.commit rfl kept.now
  have noted := @Lasting.of_commit P lasting tree tree.checkpoint rfl kept.now
  exact ⟨noted, tree.checkpoint_rollback ▸ committed, Or.inr tree.checkpoint_recording⟩

theorem commit (lasting : Lasting P) (kept : tree.Kept P) : tree.commit.Kept P :=
  of_closed (@Lasting.of_commit P lasting tree tree.commit rfl kept.now) rfl

theorem rollback (kept : tree.Kept P) : tree.rollback.Kept P :=
  of_closed kept.back tree.rollback_closed

end Kept

def Every (P : Node → Prop) (tree : Tree) : Prop :=
  ∀ id node, tree.node? id = some node → P node

section

variable {P : Node → Prop} {tree : Tree}

theorem node_of_empty {source : String} {id : NodeId} {node : Node}
    (found : (Tree.empty source).node? id = some node) : node = { shape := .program [] } := by
  have only : node ∈ #[({ shape := .program [] } : Node)] := Array.mem_of_getElem? found
  exact Array.mem_singleton.mp only

theorem every_empty (source : String) (made : P { shape := .program [] }) :
    (Tree.empty source).Every P := by
  intro id node found
  rwa [node_of_empty found]

theorem every_of_commit {before after : Tree} (same : after.commit = before.commit)
    (every : before.Every P) : after.Every P := by
  intro id node found
  rw [node?, nodes_of_commit same] at found
  exact every id node found

theorem every_modify {id : NodeId} {alter : Node → Node} (every : tree.Every P)
    (keeps : ∀ node, tree.node? id = some node → P (alter node)) :
    Every P { tree with nodes := tree.nodes.modify id.index alter } := by
  intro other node found
  rw [node?, Array.getElem?_modify] at found
  split at found
  · next here =>
      obtain ⟨former, held, rfl⟩ := Option.map_eq_some_iff.mp found
      refine keeps former ?_
      rw [node?, here]
      exact held
  · exact every other node found

theorem every_append {node : Node} (every : tree.Every P) (added : P node) :
    (tree.append node).Every P := by
  intro id held found
  rw [append, node?, Array.getElem?_push] at found
  split at found
  · cases found
    exact added
  · exact every id held found

/-- A property of single nodes lasts if it is kept by each way an edit writes a node: its
back-reference, the data of a leaf, and what one slot holds. -/
theorem lasting_every (made : ∀ shape, P { shape })
    (linked : ∀ node parent, P node → P { node with parent })
    (leaf : ∀ node shape, shape.children = [] → P node → P { node with shape, touched := true })
    (stored : ∀ node slot former filled dropped added, node.shape.storage? slot = some former →
      former.Change slot filled dropped added → P node →
      P { node with shape := node.shape.store slot filled }) : Lasting (Every P) := by
  have noted : ∀ (tree : Tree) id, tree.Every P → (tree.recordNode id).Every P :=
    fun tree id every => every_of_commit (tree.commit_recordNode id) every
  have link : ∀ (tree : Tree) id link, tree.Every P → (tree.setParent id link).Every P := by
    intro tree id link every
    have noted : (tree.recordLink id).Every P := every_of_commit (tree.commit_record id _) every
    exact every_modify noted fun node found => linked node link (noted id node found)
  have respected : Respected fun before after => before.Every P → after.Every P :=
    { refl := fun _ => id
      trans := fun first second => second ∘ first
      bump := fun _ every => every
      recordNode := noted
      setParent := link
      setRoot := fun tree id _ every => link tree id none every
      append := fun tree shape every => every_append every (made shape)
      setData := fun tree id _ shape _ _ bare every =>
        every_modify (noted tree id every) fun node found =>
          leaf node shape bare (noted tree id every id node found)
      setShape := fun tree id slot shape former filled dropped added found holds change every => by
        refine every_modify (noted tree id every) fun node held => ?_
        have same : node.shape = shape := by
          rw [recordNode, node?, record_nodes, ← node?] at held
          simpa [shape?, held] using found
        subst same
        exact stored node slot former filled dropped added holds change
          (noted tree id every id node held) }
  exact ⟨every_of_commit, fun operation every => respected.after operation _ every⟩

end

end Tree

end Codemod
