import Codemod.Catalog.Call
import Codemod.Proofs.Tree.Filed

/-!
What edits that answered have done. One that builds a node says of which kind it is; one that fills or
empties a slot, or renames a node, was counted, unless it found everything as it was to be. Nothing is
said of edits that fault: what they leave is rolled back.
-/

namespace Codemod

open Step

namespace Edit

variable {tree after : Tree} {id old new : NodeId}

theorem node_ok {held : Node} (ran : (node id).run tree = (.ok held, after)) :
    tree.node? id = some held ∧ tree = after := by
  rcases run_node id tree with ⟨found, present, reads⟩ | fails
  · cases reads.symm.trans ran
    exact ⟨present, rfl⟩
  · cases fails.symm.trans ran

theorem openSlot_ok {link : Link} {opened : Shape × Storage}
    (ran : (openSlot link).run tree = (.ok opened, after)) :
    tree.shape? link.parent = some opened.1 ∧ opened.1.storage? link.slot = some opened.2
      ∧ after = tree.recordNode link.parent := by
  obtain ⟨held, middle, reads, opens⟩ := run_bind_eq_ok.mp ran
  obtain ⟨found, rfl⟩ := node_ok reads
  dsimp only at opens
  rw [run_bind_ok (run_modify ..)] at opens
  cases holds : held.shape.storage? link.slot with
  | none =>
      rw [holds] at opens
      cases opens
  | some storage =>
      rw [holds] at opens
      cases opens
      exact ⟨shape?_of_node? found, holds, rfl⟩

theorem refill_ok {link : Link} {shape : Shape} {dropped added : List NodeId}
    (ran : (refill link shape dropped added).run (tree.recordNode link.parent) = (.ok (), after)) :
    after = (tree.refill link shape dropped added).bump := by
  rcases run_refill link shape dropped added tree with fills | ⟨left, entered, size, index, _, stops⟩
  · cases fills.symm.trans ran
    rfl
  · cases stops.symm.trans ran

/-- Where a node was replaced by another, its slot was refilled. -/
theorem replaceAt_ok {link : Link} (differ : old ≠ new)
    (ran : (replaceAt (some link) old new).run tree = (.ok (), after)) :
    ∃ shape former filled, tree.shape? link.parent = some shape
      ∧ shape.storage? link.slot = some former ∧ former.Change link.slot filled [old] [new]
      ∧ after = (tree.refill link (shape.store link.slot filled) [old] [new]).bump := by
  unfold replaceAt at ran
  rw [if_neg differ] at ran
  obtain ⟨⟨shape, former⟩, middle, opens, ran⟩ := run_bind_eq_ok.mp ran
  obtain ⟨found, holds, rfl⟩ := openSlot_ok opens
  dsimp only at ran found holds
  cases replaced : former.replace? old new with
  | none =>
      rw [replaced] at ran
      cases ran
  | some filled =>
      rw [replaced] at ran
      have fills : (refill link (shape.store link.slot filled) [old] [new]).run
          (tree.recordNode link.parent) = (.ok (), after) := by
        rw [refill, forM_one, forM_one]
        exact ran
      exact ⟨shape, former, filled, found, holds, .replaced differ replaced, refill_ok fills⟩

theorem replaceAt_root_ok (differ : old ≠ new)
    (ran : (replaceAt none old new).run tree = (.ok (), after)) : old = tree.root := by
  unfold replaceAt at ran
  rw [if_neg differ] at ran
  dsimp only at ran
  rw [run_bind_ok (run_get tree)] at ran
  by_contra foreign
  rw [if_pos foreign] at ran
  cases ran

theorem removeAt_ok {link : Option Link} (ran : (removeAt link id).run tree = (.ok (), after)) :
    ∃ place shape former filled, link = some place ∧ tree.shape? place.parent = some shape
      ∧ shape.storage? place.slot = some former ∧ former.Change place.slot filled [id] []
      ∧ after = (tree.refill place (shape.store place.slot filled) [id] []).bump := by
  unfold removeAt at ran
  cases link with
  | none => cases ran
  | some place =>
      dsimp only at ran
      by_cases required : place.slot.arity = .required
      · rw [if_pos required] at ran
        cases ran
      rw [if_neg required] at ran
      obtain ⟨⟨shape, former⟩, middle, opens, ran⟩ := run_bind_eq_ok.mp ran
      obtain ⟨found, holds, rfl⟩ := openSlot_ok opens
      dsimp only at ran found holds
      cases removed : former.remove? id with
      | none =>
          rw [removed] at ran
          cases ran
      | some filled =>
          rw [removed] at ran
          have fills : (refill place (shape.store place.slot filled) [id] []).run
              (tree.recordNode place.parent) = (.ok (), after) := by
            rw [refill, forM_one]
            exact ran
          exact ⟨place, shape, former, filled, rfl, found, holds, .removed required removed,
            refill_ok fills⟩

/-- A node that yields its place was replaced. -/
theorem replaceAt_moves {link : Option Link} {kind : Kind} (filed : tree.Filed)
    (found : tree.kind? old = some kind) (yields : kind.yields)
    (fits : ∀ slot, tree.Suits slot old → tree.Suits slot new) (differ : old ≠ new)
    (ran : (replaceAt link old new).run tree = (.ok (), after)) : tree.Moved after := by
  cases link with
  | none =>
      -- The root is a program, and that stays.
      cases replaceAt_root_ok differ ran
      cases found.symm.trans filed.rooted
      cases yields
  | some place =>
      obtain ⟨shape, former, filled, present, holds, change, rfl⟩ := replaceAt_ok differ ran
      have held := Tree.child_of_dropped present holds change List.mem_cons_self
      apply Tree.moved_refill present holds change
      · intro id enters
        cases List.mem_singleton.mp enters
        exact fits place.slot (filed.suits held)
      · intro id leaves other present
        cases List.mem_singleton.mp leaves
        cases found.symm.trans present
        exact yields

theorem remove_moves {kind : Kind} (found : tree.kind? id = some kind) (yields : kind.yields)
    (ran : (remove id).run tree = (.ok (), after)) : tree.Moved after := by
  obtain ⟨node, middle, reads, removes⟩ := run_bind_eq_ok.mp ran
  obtain ⟨_, rfl⟩ := node_ok reads
  obtain ⟨place, shape, former, filled, _, present, holds, change, rfl⟩ := removeAt_ok removes
  apply Tree.moved_refill present holds change nofun
  intro other leaves kind read
  cases List.mem_singleton.mp leaves
  cases found.symm.trans read
  exact yields

theorem moved_setData {former shape : Shape} (found : tree.shape? id = some former)
    (before : former.children = []) (leaf : shape.children = []) (kind : shape.kind = former.kind) :
    tree.Moved ((tree.recordNode id).setData id shape).bump := by
  have shapes : ∀ other, ((tree.recordNode id).setData id shape).bump.shape? other
      = if other = id then some shape else tree.shape? other := by
    intro other
    rw [Tree.shape?, Tree.node?_bump, Tree.node?_setData, Tree.node?_recordNode, Option.map_map]
    by_cases same : other = id
    · subst same
      obtain ⟨node, present, _⟩ := Option.map_eq_some_iff.mp found
      simp [present]
    · rw [if_neg same, Tree.shape?]
      cases tree.node? other <;> simp [same]
  have more : tree.revision < ((tree.recordNode id).setData id shape).bump.revision :=
    Nat.lt_succ_of_le (Tree.revision_respected.setData tree id former shape found before leaf)
  refine ⟨Tree.shifts_of_children (Nat.le_of_lt more) ?_ ?_ ?_, more⟩
  · exact (Tree.framed_recordNode tree id).root
  · intro other
    rw [Tree.kind?, shapes, Tree.kind?]
    split
    · next same => rw [same, found, Option.map_some, Option.map_some, kind]
    · rfl
  · intro other
    by_cases same : other = id
    · subst same
      rw [Tree.children_of_shape? ((shapes other).trans (if_pos rfl)),
        Tree.children_of_shape? found, before, leaf]
    · rw [Tree.children, shapes, if_neg same, Tree.children]

theorem setName_counts {value : String} (ran : (setName id value).run tree = (.ok (), after)) :
    tree.Counted after := by
  obtain ⟨node, middle, reads, renames⟩ := run_bind_eq_ok.mp ran
  obtain ⟨found, rfl⟩ := node_ok reads
  have named := shape?_of_node? found
  -- A name that is spelled as wanted is left as it is.
  have rewrites : ∀ shape : Shape, node.shape.children = [] → shape.children = [] →
      shape.kind = node.shape.kind →
      ExceptT.run (m := StateM Tree) (ε := Fault) (do
        unless node.shape = shape do
          modify fun tree => ((tree.recordNode id).setData id shape).bump) tree = (.ok (), after) →
      tree.Counted after := by
    intro shape before leaf kind ends
    by_cases same : node.shape = shape
    · rw [if_pos same] at ends
      cases ends
      exact Tree.counted_refl _
    · rw [if_neg same] at ends
      cases ends
      exact (moved_setData named before leaf kind).counted
  dsimp only at renames
  cases spelled : node.shape with
  | name text =>
      rw [spelled] at renames rewrites
      exact rewrites (.name value) rfl rfl rfl renames
  | «variable» text =>
      rw [spelled] at renames rewrites
      exact rewrites (.variable value) rfl rfl rfl renames
  | _ =>
      rw [spelled] at renames
      cases renames

theorem setName_moves {title value : String} (spelled : tree.shape? id = some (.name title))
    (differ : value ≠ title) (ran : (setName id value).run tree = (.ok (), after)) :
    tree.Moved after := by
  rw [Tree.run_setName_other spelled differ] at ran
  cases ran
  exact moved_setData spelled rfl rfl rfl

theorem renameCall_counts {call : NodeId} {title : String}
    (ran : (renameCall call title).run tree = (.ok (), after)) : tree.Counted after := by
  unfold renameCall at ran
  rw [run_bind_ok (run_get tree)] at ran
  dsimp only at ran
  split at ran
  · exact setName_counts ran
  · cases ran
    exact tree.counted_refl

theorem alloc_makes {shape : Shape}
    (suits : ∀ child ∈ shape.children, tree.Suits child.1 child.2)
    (ran : (alloc shape).run tree = (.ok id, after)) : tree.Made after shape.kind id := by
  rcases run_alloc shape tree with adds | ⟨done, size, index, stops⟩
  · cases adds.symm.trans ran
    exact Tree.made_of_shapes (tree.shape?_added shape) (tree.root_added shape)
      (tree.revision_added shape) suits
  · cases stops.symm.trans ran

/-- Nodes without a slot that is made for one kind. -/
theorem alloc_makes_plain {shape : Shape} (plain : shape.kind.calls = false)
    (ran : (alloc shape).run tree = (.ok id, after)) : tree.Made after shape.kind id := by
  apply alloc_makes _ ran
  intro child held kind wants
  rw [shape.free_of_kind plain child held] at wants
  cases wants

theorem arguments_make {values list : List NodeId}
    (ran : (values.mapM argument).run tree = (.ok list, after)) :
    tree.Shifts after ∧ ∀ id ∈ list, after.kind? id = some .argument := by
  induction values generalizing tree list with
  | nil =>
      cases ran
      exact ⟨(Tree.counted_refl _).toShifts, nofun⟩
  | cons value rest ih =>
      rw [List.mapM_cons] at ran
      obtain ⟨first, middle, makes, goes⟩ := run_bind_eq_ok.mp ran
      obtain ⟨others, last, collects, ends⟩ := run_bind_eq_ok.mp goes
      cases ends
      have made := alloc_makes_plain rfl makes
      obtain ⟨shifts, kinds⟩ := ih collects
      refine ⟨made.toShifts.trans shifts, ?_⟩
      intro id member
      rcases List.mem_cons.mp member with rfl | later
      · exact shifts.kinds made.kind
      · exact kinds id later

theorem argumentsOf_makes {values : List NodeId}
    (ran : (argumentsOf values).run tree = (.ok id, after)) :
    tree.Made after .argumentList id := by
  obtain ⟨list, middle, collects, adds⟩ := run_bind_eq_ok.mp ran
  obtain ⟨shifts, kinds⟩ := arguments_make collects
  apply shifts.made
  apply alloc_makes _ adds
  simpa [Shape.children, Shape.tagged, Tree.Suits, Slot.content?] using kinds

theorem newInstance_makes {className : String} {arguments : Option NodeId}
    (listed : ∀ list ∈ arguments, tree.kind? list = some .argumentList)
    (ran : (newInstance className arguments).run tree = (.ok id, after)) :
    tree.Made after .new id := by
  obtain ⟨name, middle, names, adds⟩ := run_bind_eq_ok.mp ran
  have named := alloc_makes_plain rfl names
  apply named.toShifts.made
  apply alloc_makes _ adds
  cases arguments with
  | none => simp [Shape.children, Shape.tagged, Tree.Suits, Slot.content?]
  | some list =>
      have kind := named.kinds (listed list rfl)
      simp [Shape.children, Shape.tagged, Tree.Suits, Slot.content?, kind]

theorem methodCall_makes {object arguments : NodeId} {method : String}
    (listed : tree.kind? arguments = some .argumentList)
    (ran : (methodCall object method arguments).run tree = (.ok id, after)) :
    tree.Made after .methodCall id := by
  obtain ⟨name, middle, names, adds⟩ := run_bind_eq_ok.mp ran
  have named := alloc_makes_plain rfl names
  apply named.toShifts.made
  apply alloc_makes _ adds
  have kind := named.kinds listed
  simp [Shape.children, Tree.Suits, Slot.content?, kind]

theorem classConstFetch_makes {className constant : String}
    (ran : (classConstFetch className constant).run tree = (.ok id, after)) :
    tree.Made after .classConstFetch id := by
  obtain ⟨first, middle, names, goes⟩ := run_bind_eq_ok.mp ran
  obtain ⟨second, last, also, adds⟩ := run_bind_eq_ok.mp goes
  have named := (alloc_makes_plain rfl names).toShifts.trans (alloc_makes_plain rfl also).toShifts
  exact named.made (alloc_makes_plain rfl adds)

theorem replace_ok (ran : (replace old new).run tree = (.ok (), after)) :
    ∃ link, (replaceAt link old new).run tree = (.ok (), after) := by
  obtain ⟨node, middle, reads, replaces⟩ := run_bind_eq_ok.mp ran
  obtain ⟨_, rfl⟩ := node_ok reads
  exact ⟨node.parent, replaces⟩

/-- A node was built, and then it took the place of one of its kind, or of one that no slot is made
for. -/
theorem replaceAt_made_moves {middle : Tree} {link : Option Link} {former kind : Kind}
    (filed : tree.Filed) (found : tree.kind? old = some former) (yields : former.yields)
    (fits : kind = former ∨ ∀ slot : Slot, slot.content? ≠ some former)
    (made : tree.Made middle kind new)
    (ran : (replaceAt link old new).run middle = (.ok (), after)) : tree.Moved after := by
  have still := made.kinds found
  apply made.toShifts.moved
  apply replaceAt_moves (made.filed filed) still yields _ (made.differs found) ran
  intro slot suits
  rcases fits with rfl | free
  · intro wanted wants
    rw [made.kind, ← still]
    exact suits wanted wants
  · exact Tree.suits_of_free still (free slot) suits new

end Edit

end Codemod
