import Codemod.Proofs.Step
import Codemod.Tree.Edit

/-!
What one edit can do. An edit that finds its slot overwrites the slot, clears the back-reference of
the node that leaves it, sets those of the nodes that enter, and counts a revision. Before that it
may be refused or find nothing to do; after the slot is written it may still stop at an id that the
arena does not have. `Course` lists these endings once, so that a property of edits is shown by
going through them and never through the bodies of the edits.
-/

namespace Codemod

open Step

variable {α : Type}

namespace Tree

theorem record_nodes (tree : Tree) (id : NodeId) (former : Node → Undo) :
    (tree.record id former).nodes = tree.nodes := by
  unfold record
  split
  · split <;> rfl
  · rfl

theorem contains_setParent (tree : Tree) (id : NodeId) (link : Option Link) (other : NodeId) :
    (tree.setParent id link).contains other = tree.contains other := by
  simp [setParent, recordLink, contains, record_nodes]

theorem contains_unlink (tree : Tree) (id : NodeId) (expected : Option Link) (other : NodeId) :
    (tree.unlink id expected).contains other = tree.contains other := by
  unfold unlink
  split
  · exact tree.contains_setParent id none other
  · rfl

theorem contains_relink (tree : Tree) (id : NodeId) (link : Option Link) (other : NodeId) :
    (tree.relink id link).contains other = tree.contains other := by
  unfold relink
  dsimp only
  split
  · rfl
  · split <;> exact tree.contains_setParent id link other

theorem not_contains_of_node? {tree : Tree} {id : NodeId} (absent : tree.node? id = none) :
    ¬ tree.contains id := by
  simpa [contains, node?] using absent

end Tree

namespace Edit

theorem run_node_some {tree : Tree} {id : NodeId} {held : Node} (found : tree.node? id = some held) :
    (node id).run tree = (.ok held, tree) := by
  simp [node, run_bind, found]

theorem run_node_none {tree : Tree} {id : NodeId} (absent : tree.node? id = none) :
    (node id).run tree = (.error (.missing tree.size id.index), tree) := by
  simp [node, run_bind, absent]

theorem run_node (id : NodeId) (tree : Tree) :
    (∃ held, tree.node? id = some held ∧ (node id).run tree = (.ok held, tree))
      ∨ (node id).run tree = (.error (.missing tree.size id.index), tree) := by
  cases found : tree.node? id with
  | some held => exact Or.inl ⟨held, rfl, run_node_some found⟩
  | none => exact Or.inr (run_node_none found)

theorem run_relink (id : NodeId) (link : Option Link) (tree : Tree) :
    (relink id link).run tree = (.ok (), tree.relink id link)
      ∨ ¬ tree.contains id
        ∧ (relink id link).run tree = (.error (.missing tree.size id.index), tree) := by
  cases found : tree.node? id with
  | some held =>
      left
      simp [relink, run_bind, run_node_some found]
  | none =>
      right
      exact ⟨Tree.not_contains_of_node? found, by simp [relink, run_bind, run_node_none found]⟩

theorem run_unlink (id : NodeId) (expected : Option Link) (tree : Tree) :
    (unlink id expected).run tree = (.ok (), tree.unlink id expected)
      ∨ ¬ tree.contains id
        ∧ (unlink id expected).run tree = (.error (.missing tree.size id.index), tree) := by
  cases found : tree.node? id with
  | some held =>
      left
      simp [unlink, run_bind, run_node_some found]
  | none =>
      right
      exact ⟨Tree.not_contains_of_node? found, by simp [unlink, run_bind, run_node_none found]⟩

theorem forM_one (step : α → Edit Unit) (value : α) : [value].forM step = step value := by
  have unrolled : [value].forM step = step value >>= fun _ => pure () := rfl
  rw [unrolled, bind_pure_unit]

theorem forM_toList (step : α → Edit Unit) (value : Option α) :
    value.toList.forM step = value.forM step := by
  cases value with
  | none => rfl
  | some value => exact forM_one step value

/-- Going through a list ends with all of it done, or after a part at its front, for want of one of
its members. -/
theorem run_forM (step : α → Edit Unit) (change : Tree → α → Tree) (target : α → NodeId)
    (each : ∀ value tree, (step value).run tree = (.ok (), change tree value)
      ∨ ¬ tree.contains (target value)
        ∧ ∃ size index, (step value).run tree = (.error (.missing size index), tree))
    (keeps : ∀ tree value id, (change tree value).contains id = tree.contains id)
    (values : List α) (tree : Tree) :
    (values.forM step).run tree = (.ok (), values.foldl change tree)
      ∨ (∃ value ∈ values, ¬ tree.contains (target value))
        ∧ ∃ done size index, (values.forM step).run tree
          = (.error (.missing size index), (values.take done).foldl change tree) := by
  induction values generalizing tree with
  | nil => exact Or.inl rfl
  | cons value rest ih =>
      have unrolled : (value :: rest).forM step = step value >>= fun _ => rest.forM step := rfl
      rw [unrolled]
      rcases each value tree with made | ⟨absent, size, index, fails⟩
      · rw [run_bind_ok made]
        rcases ih (change tree value) with finished | ⟨⟨other, member, absent⟩, done, size, index, stopped⟩
        · exact Or.inl finished
        · rw [keeps] at absent
          exact Or.inr ⟨⟨other, List.mem_cons_of_mem _ member, absent⟩, done + 1, size, index, stopped⟩
      · rw [run_bind_error fails]
        exact Or.inr ⟨⟨value, List.mem_cons_self, absent⟩, 0, size, index, rfl⟩

theorem run_forM_unlink (ids : List NodeId) (link : Option Link) (tree : Tree) :
    (ids.forM fun id => unlink id link).run tree
        = (.ok (), ids.foldl (fun tree id => tree.unlink id link) tree)
      ∨ (∃ id ∈ ids, ¬ tree.contains id)
        ∧ ∃ done size index, (ids.forM fun id => unlink id link).run tree
          = (.error (.missing size index),
            (ids.take done).foldl (fun tree id => tree.unlink id link) tree) := by
  apply run_forM _ _ id
  · intro id tree
    exact (run_unlink id link tree).imp_right fun fails => ⟨fails.1, _, _, fails.2⟩
  · intro tree id other
    exact tree.contains_unlink id link other

theorem run_forM_relink (ids : List NodeId) (link : Option Link) (tree : Tree) :
    (ids.forM fun id => relink id link).run tree
        = (.ok (), ids.foldl (fun tree id => tree.relink id link) tree)
      ∨ (∃ id ∈ ids, ¬ tree.contains id)
        ∧ ∃ done size index, (ids.forM fun id => relink id link).run tree
          = (.error (.missing size index),
            (ids.take done).foldl (fun tree id => tree.relink id link) tree) := by
  apply run_forM _ _ id
  · intro id tree
    exact (run_relink id link tree).imp_right fun fails => ⟨fails.1, _, _, fails.2⟩
  · intro tree id other
    exact tree.contains_relink id link other

end Edit

theorem Tree.run_setName_same {tree : Tree} {id : NodeId} {title : String}
    (found : tree.shape? id = some (.name title)) :
    (Edit.setName id title).run tree = (.ok (), tree) := by
  obtain ⟨node, present, spelled⟩ := Option.map_eq_some_iff.mp found
  rw [Edit.setName, Step.run_bind_ok (Edit.run_node_some present), spelled]
  dsimp only
  rw [pure_bind, if_pos rfl]
  rfl

/-- A name that is not spelled so yet. -/
theorem Tree.run_setName_other {tree : Tree} {id : NodeId} {title name : String}
    (found : tree.shape? id = some (.name title)) (differs : name ≠ title) :
    (Edit.setName id name).run tree
      = (.ok (), ((tree.recordNode id).setData id (.name name)).bump) := by
  obtain ⟨node, present, spelled⟩ := Option.map_eq_some_iff.mp found
  have changes : Shape.name title ≠ Shape.name name := fun same => differs (Shape.name.inj same).symm
  rw [Edit.setName, Step.run_bind_ok (Edit.run_node_some present), spelled]
  dsimp only
  rw [pure_bind, if_neg changes]
  rfl

/-- What an edit can make of the contents of a slot, with the nodes that leave it and those that
enter. A required slot, list or not, only has nodes replaced. -/
inductive Storage.Change (slot : Slot) :
    Storage → Storage → List NodeId → List NodeId → Prop where
  | replaced {former filled : Storage} {old new : NodeId} (differ : old ≠ new)
      (found : former.replace? old new = some filled) : Change slot former filled [old] [new]
  | removed {former filled : Storage} {id : NodeId} (free : slot.arity ≠ .required)
      (found : former.remove? id = some filled) : Change slot former filled [id] []
  | spliced {held : List NodeId} {id : NodeId} (replacement : List NodeId)
      (list : slot.arity = .list) (found : id ∈ held) :
      Change slot (.many held) (.many (spliceFirst id replacement held))
        (if id ∈ replacement then [] else [id]) replacement
  | inserted {held : List NodeId} {index : Nat} (id : NodeId) (list : slot.arity = .list)
      (fits : index ≤ held.length) :
      Change slot (.many held) (.many (held.insertIdx index id)) [] [id]
  | reset {former filled : Option NodeId} (optional : slot.arity = .optional)
      (differ : former ≠ filled) :
      Change slot (.maybe former) (.maybe filled) former.toList filled.toList

/-- Overwrite a slot, then clear the back-references of the nodes that left it and set those of the
nodes that entered. -/
def Tree.refill (tree : Tree) (link : Link) (shape : Shape) (dropped added : List NodeId) : Tree :=
  let tree := (tree.recordNode link.parent).setShape link.parent shape
  let tree := dropped.foldl (fun tree id => tree.unlink id (some link)) tree
  added.foldl (fun tree id => tree.relink id (some link)) tree

def Edit.refill (link : Link) (shape : Shape) (dropped added : List NodeId) : Edit Unit := do
  modify fun tree => tree.setShape link.parent shape
  dropped.forM fun id => unlink id (some link)
  added.forM fun id => relink id (some link)
  bump

theorem Edit.run_refill (link : Link) (shape : Shape) (dropped added : List NodeId) (tree : Tree) :
    (refill link shape dropped added).run (tree.recordNode link.parent)
        = (.ok (), (tree.refill link shape dropped added).bump)
      ∨ ∃ left entered size index,
        ((∃ id ∈ dropped, ¬ tree.contains id) ∨ left = dropped.length)
        ∧ (refill link shape dropped added).run (tree.recordNode link.parent)
          = (.error (.missing size index),
            tree.refill link shape (dropped.take left) (added.take entered)) := by
  let stored := (tree.recordNode link.parent).setShape link.parent shape
  let cleared := dropped.foldl (fun tree id => tree.unlink id (some link)) stored
  have same : ∀ id, stored.contains id = tree.contains id := by
    intro id
    simp [stored, Tree.setShape, Tree.recordNode, Tree.contains, Tree.record_nodes]
  rw [refill, run_bind_ok (run_modify ..)]
  rcases run_forM_unlink dropped (some link) stored with
    unlinks | ⟨⟨id, member, absent⟩, left, size, index, stops⟩
  · rw [run_bind_ok unlinks]
    rcases run_forM_relink added (some link) cleared with relinks | ⟨_, entered, size, index, stops⟩
    · left
      rw [run_bind_ok relinks]
      rfl
    · right
      refine ⟨dropped.length, entered, size, index, Or.inr rfl, ?_⟩
      rw [run_bind_error stops, List.take_length]
      rfl
  · right
    rw [same] at absent
    refine ⟨left, 0, size, index, Or.inl ⟨id, member, absent⟩, ?_⟩
    rw [run_bind_error stops]
    rfl

namespace Edit

inductive Course (tree : Tree) : Except Fault Unit × Tree → Prop where
  | idle : Course tree (.ok (), tree)
  | refused (error : TreeError) : Course tree (.error (.rejected error), tree)
  | absent (size index : Nat) : Course tree (.error (.missing size index), tree)
  /-- The slot was noted in the journal, and then nothing had to or could be done. -/
  | opened (id : NodeId) (result : Except Fault Unit)
      (answered : result = .ok () ∨ ∃ error, result = .error (.rejected error)) :
      Course tree (result, tree.recordNode id)
  /-- A node without children got other data. -/
  | rewritten {id : NodeId} {former shape : Shape} (found : tree.shape? id = some former)
      (before : former.children = []) (after : shape.children = []) :
      Course tree (.ok (), ((tree.recordNode id).setData id shape).bump)
  | refilled {link : Link} {shape : Shape} {former filled : Storage} {dropped added : List NodeId}
      (found : tree.shape? link.parent = some shape)
      (holds : shape.storage? link.slot = some former)
      (change : former.Change link.slot filled dropped added) :
      Course tree (.ok (), (tree.refill link (shape.store link.slot filled) dropped added).bump)
  /-- One of the nodes that leave or enter is not in the arena; all that leave are done with before
  the first of those that enter. -/
  | halted {link : Link} {shape : Shape} {former filled : Storage} {dropped added : List NodeId}
      (found : tree.shape? link.parent = some shape)
      (holds : shape.storage? link.slot = some former)
      (change : former.Change link.slot filled dropped added) (left entered size index : Nat)
      (stops : (∃ id ∈ dropped, ¬ tree.contains id) ∨ left = dropped.length) :
      Course tree (.error (.missing size index),
        tree.refill link (shape.store link.slot filled) (dropped.take left) (added.take entered))
  | rerooted {new : NodeId} (found : (tree.node? new).isSome) (differ : tree.root ≠ new) :
      Course tree (.ok (), ((tree.setRoot new).unlink tree.root none).bump)
  /-- The former root is not in the arena. -/
  | uprooted {new : NodeId} (found : (tree.node? new).isSome) (size index : Nat) :
      Course tree (.error (.missing size index), tree.setRoot new)

variable {tree : Tree}

theorem shape?_of_node? {id : NodeId} {held : Node} (found : tree.node? id = some held) :
    tree.shape? id = some held.shape := by
  rw [Tree.shape?, found]
  rfl

theorem course_openSlot (link : Link) (next : Shape × Storage → Edit Unit)
    (each : ∀ shape storage, tree.shape? link.parent = some shape →
      shape.storage? link.slot = some storage →
      Course tree ((next (shape, storage)).run (tree.recordNode link.parent))) :
    Course tree ((openSlot link >>= next).run tree) := by
  rcases run_node link.parent tree with ⟨held, found, reads⟩ | fails
  · cases holds : held.shape.storage? link.slot with
    | some storage =>
        have opens : (openSlot link).run tree
            = (.ok (held.shape, storage), tree.recordNode link.parent) := by
          rw [openSlot, run_bind_ok reads, run_bind_ok (run_modify ..), holds]
          rfl
        rw [run_bind_ok opens]
        exact each held.shape storage (shape?_of_node? found) holds
    | none =>
        have refuses : (openSlot link).run tree
            = (.error (.rejected (.noSuchSlot held.shape.kind link.slot)),
              tree.recordNode link.parent) := by
          rw [openSlot, run_bind_ok reads, run_bind_ok (run_modify ..), holds]
          rfl
        rw [run_bind_error refuses]
        exact .opened _ _ (Or.inr ⟨_, rfl⟩)
  · have stops : (openSlot link).run tree
        = (.error (.missing tree.size link.parent.index), tree) := by
      rw [openSlot, run_bind_error fails]
    rw [run_bind_error stops]
    exact .absent _ _

theorem course_refill {link : Link} {shape : Shape} {former filled : Storage}
    {dropped added : List NodeId} (found : tree.shape? link.parent = some shape)
    (holds : shape.storage? link.slot = some former)
    (change : former.Change link.slot filled dropped added) :
    Course tree ((refill link (shape.store link.slot filled) dropped added).run
      (tree.recordNode link.parent)) := by
  rcases run_refill link (shape.store link.slot filled) dropped added tree with
    finishes | ⟨left, entered, size, index, stops, ran⟩
  · rw [finishes]
    exact .refilled found holds change
  · rw [ran]
    exact .halted found holds change left entered size index stops

theorem course_rewrite {id : NodeId} {former shape : Shape} (found : tree.shape? id = some former)
    (before : former.children = []) (after : shape.children = []) :
    Course tree (ExceptT.run (m := StateM Tree) (ε := Fault) (do
      unless former = shape do
        modify fun tree => ((tree.recordNode id).setData id shape).bump) tree) := by
  by_cases same : former = shape
  · rw [if_pos same]
    exact .idle
  · rw [if_neg same]
    exact .rewritten found before after

theorem course_setName (id : NodeId) (value : String) (tree : Tree) :
    Course tree ((setName id value).run tree) := by
  rcases run_node id tree with ⟨held, found, reads⟩ | fails
  · rw [setName, run_bind_ok reads]
    have named := shape?_of_node? found
    cases shape : held.shape with
    | name text => exact course_rewrite (shape ▸ named) rfl rfl
    | «variable» text => exact course_rewrite (shape ▸ named) rfl rfl
    | _ => exact .refused _
  · rw [setName, run_bind_error fails]
    exact .absent _ _

theorem course_setLeaf (id : NodeId) (shape : Shape) (tree : Tree) :
    Course tree ((setLeaf id shape).run tree) := by
  unfold setLeaf
  by_cases after : shape.children = []
  · rw [if_pos (List.isEmpty_iff.mpr after)]
    rcases run_node id tree with ⟨held, found, reads⟩ | fails
    · rw [run_bind_ok reads]
      dsimp only
      by_cases before : held.shape.children = []
      · rw [if_pos (List.isEmpty_iff.mpr before)]
        exact course_rewrite (shape?_of_node? found) before after
      · rw [if_neg (fun empty => before (List.isEmpty_iff.mp empty))]
        exact .refused _
    · rw [run_bind_error fails]
      exact .absent _ _
  · rw [if_neg (fun empty => after (List.isEmpty_iff.mp empty))]
    exact .refused _

theorem course_replaceAt (link : Option Link) (old new : NodeId) (tree : Tree) :
    Course tree ((replaceAt link old new).run tree) := by
  unfold replaceAt
  by_cases same : old = new
  · rw [if_pos same]
    exact .idle
  rw [if_neg same]
  cases link with
  | none =>
      dsimp only
      rw [run_bind_ok (run_get tree)]
      by_cases foreign : old ≠ tree.root
      · rw [if_pos foreign]
        exact .refused _
      rw [if_neg foreign]
      have atRoot : old = tree.root := Decidable.not_not.mp foreign
      rcases run_node new tree with ⟨held, found, reads⟩ | fails
      · rw [run_bind_ok reads, run_bind_ok (run_set ..)]
        have present : (tree.node? new).isSome := by rw [found]; rfl
        rcases run_unlink old none (tree.setRoot new) with unlinks | ⟨_, stops⟩
        · rw [run_bind_ok unlinks, atRoot]
          exact .rerooted present (atRoot ▸ same)
        · rw [run_bind_error stops]
          exact .uprooted present _ _
      · rw [run_bind_error fails]
        exact .absent _ _
  | some link =>
      apply course_openSlot
      intro shape storage found holds
      dsimp only
      cases replaced : storage.replace? old new with
      | none => exact .opened _ _ (Or.inr ⟨_, rfl⟩)
      | some filled =>
          have spelled := course_refill found holds (.replaced same replaced)
          rwa [refill, forM_one, forM_one] at spelled

theorem course_removeAt (link : Option Link) (id : NodeId) (tree : Tree) :
    Course tree ((removeAt link id).run tree) := by
  unfold removeAt
  cases link with
  | none => exact .refused _
  | some link =>
      dsimp only
      by_cases required : link.slot.arity = .required
      · rw [if_pos required]
        exact .refused _
      rw [if_neg required]
      apply course_openSlot
      intro shape storage found holds
      dsimp only
      cases removed : storage.remove? id with
      | none => exact .opened _ _ (Or.inr ⟨_, rfl⟩)
      | some filled =>
          have spelled := course_refill found holds (.removed required removed)
          rwa [refill, forM_one] at spelled

theorem course_spliceAt (link : Option Link) (id : NodeId) (replacement : List NodeId)
    (tree : Tree) : Course tree ((spliceAt link id replacement).run tree) := by
  unfold spliceAt
  cases link with
  | none => exact .refused _
  | some link =>
      dsimp only
      by_cases single : link.slot.arity ≠ .list
      · rw [if_pos single]
        exact .refused _
      rw [if_neg single]
      have list : link.slot.arity = .list := Decidable.not_not.mp single
      apply course_openSlot
      intro shape storage found holds
      cases storage with
      | many held =>
          dsimp only
          by_cases foreign : id ∉ held
          · rw [if_pos foreign]
            exact .opened _ _ (Or.inr ⟨_, rfl⟩)
          rw [if_neg foreign]
          have spelled := course_refill found holds
            (.spliced replacement list (Decidable.not_not.mp foreign))
          by_cases kept : id ∈ replacement
          · rw [refill, if_pos kept] at spelled
            rw [if_neg (fun absent => absent kept)]
            exact spelled
          · rw [refill, if_neg kept, forM_one] at spelled
            rw [if_pos kept]
            exact spelled
      | _ => exact .opened _ _ (Or.inr ⟨_, rfl⟩)

theorem course_insert (parent : NodeId) (slot : Slot) (index : Nat) (id : NodeId) (tree : Tree) :
    Course tree ((insert parent slot index id).run tree) := by
  unfold insert
  by_cases single : slot.arity ≠ .list
  · rw [if_pos single]
    exact .refused _
  rw [if_neg single]
  have list : slot.arity = .list := Decidable.not_not.mp single
  apply course_openSlot
  intro shape storage found holds
  cases storage with
  | many held =>
      dsimp only
      by_cases beyond : held.length < index
      · rw [if_pos beyond]
        exact .opened _ _ (Or.inr ⟨_, rfl⟩)
      rw [if_neg beyond]
      have spelled := course_refill found holds (.inserted id list (Nat.le_of_not_lt beyond))
      rwa [refill, forM_one] at spelled
  | _ => exact .opened _ _ (Or.inr ⟨_, rfl⟩)

theorem course_setOptional (parent : NodeId) (slot : Slot) (id : Option NodeId) (tree : Tree) :
    Course tree ((setOptional parent slot id).run tree) := by
  unfold setOptional
  by_cases other : slot.arity ≠ .optional
  · rw [if_pos other]
    rcases run_node parent tree with ⟨held, _, reads⟩ | fails
    · rw [run_bind_ok reads]
      exact .refused _
    · rw [run_bind_error fails]
      exact .absent _ _
  rw [if_neg other]
  have optional : slot.arity = .optional := Decidable.not_not.mp other
  apply course_openSlot
  intro shape storage found holds
  cases storage with
  | maybe former =>
      dsimp only
      by_cases same : former = id
      · rw [if_pos same]
        exact .opened _ _ (Or.inl rfl)
      rw [if_neg same]
      have spelled := course_refill found holds (.reset optional same)
      rwa [refill, forM_toList, forM_toList] at spelled
  | _ => exact .opened _ _ (Or.inr ⟨_, rfl⟩)

theorem course_node (id : NodeId) (next : Node → Edit Unit)
    (each : ∀ held, Course tree ((next held).run tree)) :
    Course tree ((node id >>= next).run tree) := by
  rcases run_node id tree with ⟨held, _, reads⟩ | fails
  · rw [run_bind_ok reads]
    exact each held
  · rw [run_bind_error fails]
    exact .absent _ _

theorem course_replace (old new : NodeId) (tree : Tree) :
    Course tree ((replace old new).run tree) :=
  course_node old _ fun held => course_replaceAt held.parent old new tree

theorem course_remove (id : NodeId) (tree : Tree) : Course tree ((remove id).run tree) :=
  course_node id _ fun held => course_removeAt held.parent id tree

theorem course_push (parent : NodeId) (slot : Slot) (id : NodeId) (tree : Tree) :
    Course tree ((push parent slot id).run tree) := by
  apply course_node parent
  intro held
  rw [run_bind_ok (run_get tree)]
  exact course_insert parent slot _ id tree

theorem run_alloc (shape : Shape) (tree : Tree) :
    (alloc shape).run tree
        = (.ok ⟨tree.size⟩, (tree.append { shape }).adopt ⟨tree.size⟩ shape.children)
      ∨ ∃ done size index, (alloc shape).run tree = (.error (.missing size index),
        (tree.append { shape }).adopt ⟨tree.size⟩ (shape.children.take done)) := by
  -- The node stands in the arena before its children are asked for, and stays if one is missing.
  have adopts := run_forM
    (fun child : Slot × NodeId => relink child.2 (some ⟨⟨tree.size⟩, child.1⟩))
    (fun tree' child => tree'.relink child.2 (some ⟨⟨tree.size⟩, child.1⟩)) Prod.snd
    (fun child tree => (run_relink child.2 _ tree).imp_right fun fails => ⟨fails.1, _, _, fails.2⟩)
    (fun tree' child id => tree'.contains_relink child.2 _ id)
    shape.children (tree.append { shape })
  rw [alloc, run_bind_ok (run_get tree), run_bind_ok (run_modify ..)]
  rcases adopts with finishes | ⟨_, done, size, index, stops⟩
  · left
    exact run_bind_ok finishes _
  · right
    exact ⟨done, size, index, run_bind_error stops _⟩

end Edit

end Codemod
