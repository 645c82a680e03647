import Codemod.Proofs.Edit.Steady
import Mathlib.Data.List.Perm.Basic
import Mathlib.Tactic.CasesM

/-!
Edits that find their place, node by node. Slots and back-references are two records of the same
thing, written one after the other; the equations here say what each node is like after the writing,
and which tree an edit ends with once all the ids it is given are in the arena.
-/

namespace Codemod

open Step

theorem NodeId.index_inj {id other : NodeId} : id.index = other.index ↔ id = other := by
  cases id
  cases other
  simp

/-! ### Slots of a node -/

namespace Storage

-- Contents of the same sort: one node, at most one, or a list.
def Alike : Storage → Storage → Prop
  | .one _, .one _ | .maybe _, .maybe _ | .many _, .many _ => True
  | _, _ => False

theorem perm_replace {old new : NodeId} {held : List NodeId} (found : old ∈ held) :
    (held.replace old new).Perm (new :: held.erase old) := by
  induction held with
  | nil => cases found
  | cons id rest ih =>
      by_cases here : id = old
      · simp [here]
      · have later : old ∈ rest := by simpa [Ne.symm here] using found
        have differs : (old == id) = false := by simp [Ne.symm here]
        simp only [List.replace_cons, differs, List.erase_cons, beq_iff_eq, here, if_false]
        exact ((ih later).cons id).trans (.swap ..)

theorem perm_spliceFirst {node : NodeId} {replacement held : List NodeId} (found : node ∈ held) :
    (spliceFirst node replacement held).Perm (replacement ++ held.erase node) := by
  induction held with
  | nil => cases found
  | cons id rest ih =>
      by_cases here : id = node
      · simp [spliceFirst, here]
      · have later : node ∈ rest := by simpa [Ne.symm here] using found
        simp only [spliceFirst, here, if_false, List.erase_cons, beq_iff_eq]
        exact ((ih later).cons id).trans List.perm_middle.symm

/-- Of the nodes in a slot some go and the others are kept; those that go and do not come back at
once are dropped. -/
structure Exchange (former filled : Storage) (gone kept dropped added : List NodeId) : Prop where
  alike : former.Alike filled
  leaves : former.ids.Perm (gone ++ kept)
  enters : filled.ids.Perm (added ++ kept)
  drops : ∀ id, id ∈ dropped ↔ id ∈ gone ∧ id ∉ added

theorem exchange_spliced {held replacement : List NodeId} {id : NodeId} (found : id ∈ held) :
    Exchange (.many held) (.many (spliceFirst id replacement held)) [id] (held.erase id)
      (if id ∈ replacement then [] else [id]) replacement where
  alike := trivial
  leaves := List.perm_cons_erase found
  enters := perm_spliceFirst found
  drops other := by
    by_cases back : id ∈ replacement
    · simp only [back, if_true]
      grind
    · simp only [back, if_false]
      grind

theorem replace?_of_mem {storage : Storage} {id : NodeId} (member : id ∈ storage.ids) (new : NodeId) :
    ∃ filled, storage.replace? id new = some filled := by
  cases storage <;> simp_all [ids, replace?]

theorem remove?_of_mem {storage : Storage} {id : NodeId} (free : ∀ held, storage ≠ .one held)
    (member : id ∈ storage.ids) : ∃ filled, storage.remove? id = some filled := by
  cases storage <;> simp_all [ids, remove?]

namespace Change

variable {slot : Slot} {former filled : Storage} {dropped added : List NodeId}

theorem alike (change : former.Change slot filled dropped added) : former.Alike filled := by
  cases change with
  | replaced _ found =>
      cases former <;>
        simp only [replace?, Option.ite_none_right_eq_some, Option.some.injEq] at found <;>
        obtain ⟨_, rfl⟩ := found <;> trivial
  | removed _ found =>
      cases former with
      | one => cases found
      | maybe | many =>
          simp only [remove?, Option.ite_none_right_eq_some, Option.some.injEq] at found
          obtain ⟨_, rfl⟩ := found
          trivial
  | spliced | inserted | reset => trivial

theorem exchange (change : former.Change slot filled dropped added) :
    ∃ gone kept, former.Exchange filled gone kept dropped added := by
  have alike := change.alike
  cases change with
  | @replaced _ _ old new differ found =>
      -- A replacement drops its old node for good, as the new one is another.
      have apart : ∀ id, id ∈ [old] ↔ id ∈ [old] ∧ id ∉ [new] := by grind
      cases former with
      | one held =>
          simp only [replace?, Option.ite_none_right_eq_some, Option.some.injEq] at found
          obtain ⟨rfl, rfl⟩ := found
          exact ⟨[held], [], alike, by simp [ids], by simp [ids], apart⟩
      | maybe held =>
          simp only [replace?, Option.ite_none_right_eq_some, Option.some.injEq] at found
          obtain ⟨rfl, rfl⟩ := found
          exact ⟨[old], [], alike, by simp [ids], by simp [ids], apart⟩
      | many held =>
          simp only [replace?, Option.ite_none_right_eq_some, Option.some.injEq] at found
          obtain ⟨member, rfl⟩ := found
          exact ⟨[old], held.erase old, alike, List.perm_cons_erase member, perm_replace member, apart⟩
  | @removed _ _ id _ found =>
      cases former with
      | one held => cases found
      | maybe held =>
          simp only [remove?, Option.ite_none_right_eq_some, Option.some.injEq] at found
          obtain ⟨rfl, rfl⟩ := found
          exact ⟨[id], [], alike, by simp [ids], by simp [ids], by simp⟩
      | many held =>
          simp only [remove?, Option.ite_none_right_eq_some, Option.some.injEq] at found
          obtain ⟨member, rfl⟩ := found
          exact ⟨[id], held.erase id, alike, List.perm_cons_erase member, .refl _, by simp⟩
  | @spliced held id _ _ found => exact ⟨[id], held.erase id, exchange_spliced found⟩
  | @inserted held index id _ fits =>
      exact ⟨[], held, alike, .refl _, List.perm_insertIdx id held fits, by simp⟩
  | @reset former filled _ differ =>
      refine ⟨former.toList, [], alike, by simp [ids], by simp [ids], ?_⟩
      intro id
      cases former <;> cases filled <;> grind

/-- No edit drops two nodes. -/
theorem drops_one (change : former.Change slot filled dropped added) {id other : NodeId}
    (first : id ∈ dropped) (second : other ∈ dropped) : id = other := by
  cases change with
  | replaced | removed | inserted => grind
  | spliced => grind
  | reset => grind

end Change

end Storage

namespace Shape

theorem children_storage? {shape : Shape} {slot : Slot} {storage : Storage}
    (holds : shape.storage? slot = some storage) :
    shape.children.filter (fun child => child.1 = slot) = tagged slot storage.ids := by
  unfold storage? at holds
  split at holds <;> cases holds <;>
    simp [children, tagged, Storage.ids, List.filter_map, Function.comp_def]

theorem children_store_other (shape : Shape) (slot : Slot) (filled : Storage) :
    (shape.store slot filled).children.filter (fun child => child.1 ≠ slot)
      = shape.children.filter fun child => child.1 ≠ slot := by
  unfold store
  split <;> simp [children, tagged, List.filter_map, Function.comp_def]

theorem storage?_store {shape : Shape} {slot : Slot} {former filled : Storage}
    (holds : shape.storage? slot = some former) (alike : former.Alike filled) :
    (shape.store slot filled).storage? slot = some filled := by
  unfold storage? at holds
  split at holds <;> cases holds <;> cases filled <;> first | rfl | cases alike

theorem storage?_free {shape : Shape} {slot : Slot} {storage : Storage}
    (holds : shape.storage? slot = some storage) (free : slot.arity ≠ .required) (held : NodeId) :
    storage ≠ .one held := by
  rintro rfl
  unfold storage? at holds
  split at holds <;> cases holds <;> exact free rfl

theorem mem_tagged {slot other : Slot} {id : NodeId} {ids : List NodeId} :
    (slot, id) ∈ tagged other ids ↔ slot = other ∧ id ∈ ids := by
  simp [tagged, eq_comm, and_comm]

theorem storage?_of_child {shape : Shape} {slot : Slot} {id : NodeId}
    (held : (slot, id) ∈ shape.children) :
    ∃ storage, shape.storage? slot = some storage ∧ id ∈ storage.ids := by
  cases shape <;>
    simp only [children, mem_tagged, List.mem_cons, List.mem_append, Prod.mk.injEq,
      List.not_mem_nil, or_false] at held <;>
    casesm* _ ∨ _, _ ∧ _ <;> subst_vars <;> exact ⟨_, rfl, by simp_all [Storage.ids]⟩

theorem mem_children_slot {shape : Shape} {slot : Slot} {storage : Storage} {id : NodeId}
    (holds : shape.storage? slot = some storage) :
    (slot, id) ∈ shape.children ↔ id ∈ storage.ids := by
  have filtered : (slot, id) ∈ shape.children.filter (fun child => child.1 = slot)
      ↔ (slot, id) ∈ tagged slot storage.ids := by rw [children_storage? holds]
  simpa [tagged] using filtered

theorem mem_children_other {shape : Shape} {slot : Slot} {filled : Storage} {child : Slot × NodeId}
    (other : child.1 ≠ slot) :
    child ∈ (shape.store slot filled).children ↔ child ∈ shape.children := by
  have filtered : child ∈ (shape.store slot filled).children.filter (fun child => child.1 ≠ slot)
      ↔ child ∈ shape.children.filter fun child => child.1 ≠ slot := by rw [children_store_other]
  simpa [other] using filtered

theorem ids_perm {shape : Shape} {slot : Slot} {storage : Storage}
    (holds : shape.storage? slot = some storage) :
    (shape.children.map Prod.snd).Perm
      (storage.ids ++ (shape.children.filter fun child => child.1 ≠ slot).map Prod.snd) := by
  have split := List.filter_append_perm (fun child => decide (child.1 = slot)) shape.children
  simp only [children_storage? holds, ← decide_not] at split
  simpa using split.symm.map Prod.snd

theorem ids_store_perm {shape : Shape} {slot : Slot} {former filled : Storage}
    (holds : shape.storage? slot = some former) (alike : former.Alike filled) :
    ((shape.store slot filled).children.map Prod.snd).Perm
      (filled.ids ++ (shape.children.filter fun child => child.1 ≠ slot).map Prod.snd) := by
  rw [← children_store_other shape slot filled]
  exact ids_perm (storage?_store holds alike)

/-- The children of a node one of whose slots was refilled. -/
theorem mem_children_store {shape : Shape} {slot : Slot} {former filled : Storage}
    {gone kept dropped added : List NodeId} (holds : shape.storage? slot = some former)
    (exchange : former.Exchange filled gone kept dropped added)
    (nodup : (shape.children.map Prod.snd).Nodup) {child : Slot × NodeId} :
    child ∈ (shape.store slot filled).children
      ↔ child.1 = slot ∧ child.2 ∈ added ∨ child ∈ shape.children ∧ child.2 ∉ gone := by
  obtain ⟨at_slot, id⟩ := child
  have parted := (ids_perm holds).trans (exchange.leaves.append_right _)
  rw [List.append_assoc] at parted
  obtain ⟨_, _, disjoint⟩ := List.nodup_append.mp (parted.nodup_iff.mp nodup)
  by_cases here : at_slot = slot
  · subst here
    rw [mem_children_slot (storage?_store holds exchange.alike), exchange.enters.mem_iff,
      mem_children_slot holds, exchange.leaves.mem_iff, List.mem_append, List.mem_append]
    constructor
    · rintro (enters | remains)
      · exact Or.inl ⟨rfl, enters⟩
      · refine Or.inr ⟨Or.inr remains, ?_⟩
        intro leaves
        exact disjoint id leaves id (List.mem_append_left _ remains) rfl
    · rintro (⟨_, enters⟩ | ⟨leaves | remains, stays⟩)
      · exact Or.inl enters
      · exact absurd leaves stays
      · exact Or.inr remains
  · rw [mem_children_other here]
    constructor
    · intro member
      refine Or.inr ⟨member, ?_⟩
      intro leaves
      have other : id ∈ (shape.children.filter fun child => child.1 ≠ slot).map Prod.snd :=
        List.mem_map.mpr ⟨(at_slot, id), by simp [member, here], rfl⟩
      exact disjoint id leaves id (List.mem_append_right _ other) rfl
    · rintro (⟨same, _⟩ | ⟨member, _⟩)
      · exact absurd same here
      · exact member

end Shape

namespace Tree

variable {tree : Tree}

theorem contains_iff {id : NodeId} : tree.contains id ↔ id.index < tree.size := by
  simp [contains, size]

/-- The id that the next node gets is not taken. -/
theorem not_contains_next (tree : Tree) : ¬ tree.contains ⟨tree.size⟩ := fun taken =>
  Nat.lt_irrefl _ (contains_iff.mp taken)

theorem node?_next (tree : Tree) : tree.node? ⟨tree.size⟩ = none :=
  Array.getElem?_size

theorem ne_next_of_contains {id : NodeId} (inside : tree.contains id) : id ≠ ⟨tree.size⟩ := by
  rintro rfl
  exact tree.not_contains_next inside

theorem contains_of_node? {id : NodeId} {node : Node} (found : tree.node? id = some node) :
    tree.contains id :=
  contains_iff.mpr (Array.getElem?_eq_some_iff.mp found).1

theorem node?_of_contains {id : NodeId} (inside : tree.contains id) :
    ∃ node, tree.node? id = some node :=
  ⟨_, Array.getElem?_eq_getElem (contains_iff.mp inside)⟩

theorem contains_of_shape? {id : NodeId} {shape : Shape} (found : tree.shape? id = some shape) :
    tree.contains id := by
  obtain ⟨node, held, _⟩ := Option.map_eq_some_iff.mp found
  exact contains_of_node? held

theorem contains_of_kind? {id : NodeId} {kind : Kind} (found : tree.kind? id = some kind) :
    tree.contains id := by
  obtain ⟨shape, shaped, _⟩ := Option.map_eq_some_iff.mp found
  exact contains_of_shape? shaped

theorem children_of_shape? {id : NodeId} {shape : Shape} (found : tree.shape? id = some shape) :
    tree.children id = shape.children := by
  simp [children, found]

theorem shape?_of_child {id : NodeId} {child : Slot × NodeId} (held : child ∈ tree.children id) :
    ∃ shape, tree.shape? id = some shape ∧ child ∈ shape.children := by
  cases found : tree.shape? id with
  | none => simp [children, found] at held
  | some shape => exact ⟨shape, rfl, by simpa [children, found] using held⟩

theorem node?_of_parent? {id : NodeId} {link : Link} (named : tree.parent? id = some link) :
    ∃ node, tree.node? id = some node ∧ node.parent = some link :=
  Option.bind_eq_some_iff.mp named

structure Keeps (tree : Tree) (parent : NodeId) : Prop where
  named : ∀ child ∈ tree.children parent, tree.parent? child.2 = some ⟨parent, child.1⟩
  nodup : ((tree.children parent).map Prod.snd).Nodup

/-! ### What stays -/

structure Framed (before after : Tree) : Prop where
  source : after.source = before.source
  root : after.root = before.root
  size : after.size = before.size

theorem framed_ordered : Ordered Framed where
  refl _ := ⟨rfl, rfl, rfl⟩
  trans first second := ⟨second.source.trans first.source, second.root.trans first.root,
    second.size.trans first.size⟩

theorem Framed.contains {before after : Tree} (framed : before.Framed after) (id : NodeId) :
    after.contains id = before.contains id := by
  have sizes : after.nodes.size = before.nodes.size := framed.size
  simp [Tree.contains, sizes]

theorem framed_of_commit {before after : Tree} (same : after.commit = before.commit) :
    before.Framed after := by
  refine ⟨source_of_commit same, root_of_commit same, ?_⟩
  rw [size, nodes_of_commit same, size]

theorem framed_recordNode (tree : Tree) (id : NodeId) : tree.Framed (tree.recordNode id) :=
  framed_of_commit (tree.commit_recordNode id)

theorem framed_setShape (tree : Tree) (id : NodeId) (shape : Shape) :
    tree.Framed (tree.setShape id shape) :=
  ⟨rfl, rfl, by simp [setShape, size]⟩

theorem framed_setData (tree : Tree) (id : NodeId) (shape : Shape) :
    tree.Framed (tree.setData id shape) :=
  ⟨rfl, rfl, by simp [setData, size]⟩

theorem framed_setParent (tree : Tree) (id : NodeId) (link : Option Link) :
    tree.Framed (tree.setParent id link) := by
  have noted : tree.Framed (tree.recordLink id) := framed_of_commit (tree.commit_record id _)
  refine ⟨noted.source, noted.root, ?_⟩
  have sizes := noted.size
  simpa [setParent, size] using sizes

@[simp] theorem node?_bump (tree : Tree) (id : NodeId) : tree.bump.node? id = tree.node? id := rfl

@[simp] theorem shape?_bump (tree : Tree) (id : NodeId) : tree.bump.shape? id = tree.shape? id := rfl

@[simp] theorem children_bump (tree : Tree) (id : NodeId) :
    tree.bump.children id = tree.children id := rfl

@[simp] theorem kind?_bump (tree : Tree) (id : NodeId) : tree.bump.kind? id = tree.kind? id :=
  rfl

@[simp] theorem parent?_bump (tree : Tree) (id : NodeId) : tree.bump.parent? id = tree.parent? id :=
  rfl

theorem framed_bump (tree : Tree) : tree.Framed tree.bump :=
  ⟨rfl, rfl, rfl⟩

theorem framed_relink (tree : Tree) (id : NodeId) (link : Option Link) :
    tree.Framed (tree.relink id link) := by
  unfold relink
  dsimp only
  split
  · exact framed_ordered.refl tree
  · split
    · exact framed_ordered.trans (framed_setParent tree id link) (framed_bump _)
    · exact framed_setParent tree id link

theorem framed_unlink (tree : Tree) (id : NodeId) (expected : Option Link) :
    tree.Framed (tree.unlink id expected) := by
  unfold unlink
  split
  · exact framed_setParent tree id none
  · exact framed_ordered.refl tree

theorem framed_adopt (tree : Tree) (parent : NodeId) (children : List (Slot × NodeId)) :
    tree.Framed (tree.adopt parent children) := by
  apply framed_ordered.foldl
  intro tree child
  exact tree.framed_relink child.2 _

theorem framed_refill (tree : Tree) (link : Link) (shape : Shape) (dropped added : List NodeId) :
    tree.Framed (tree.refill link shape dropped added) := by
  have stored := framed_ordered.trans (tree.framed_recordNode link.parent)
    (framed_setShape _ link.parent shape)
  have cleared := framed_ordered.foldl _ (fun tree id => framed_unlink tree id (some link)) dropped
    ((tree.recordNode link.parent).setShape link.parent shape)
  exact framed_ordered.trans (framed_ordered.trans stored cleared)
    (framed_ordered.foldl _ (fun tree id => framed_relink tree id (some link)) added _)

/-! ### Nodes after a change -/

theorem node?_recordNode (tree : Tree) (id other : NodeId) :
    (tree.recordNode id).node? other = tree.node? other := by
  rw [node?, recordNode, record_nodes, node?]

theorem node?_setShape (tree : Tree) (id : NodeId) (shape : Shape) (other : NodeId) :
    (tree.setShape id shape).node? other = (tree.node? other).map fun node =>
      { node with shape := if other = id then shape else node.shape } := by
  rw [setShape, node?, Array.getElem?_modify]
  simp only [NodeId.index_inj]
  by_cases here : id = other
  · simp [here, node?]
  · simp [here, Ne.symm here, node?]

theorem node?_setData (tree : Tree) (id : NodeId) (shape : Shape) (other : NodeId) :
    (tree.setData id shape).node? other = (tree.node? other).map fun node =>
      { node with
        shape := if other = id then shape else node.shape
        touched := if other = id then true else node.touched } := by
  rw [setData, node?, Array.getElem?_modify]
  simp only [NodeId.index_inj]
  by_cases here : id = other
  · simp [here, node?]
  · simp [here, Ne.symm here, node?]

/-- New data for a node does not touch the back-references. -/
theorem parent?_rewrite (tree : Tree) (id : NodeId) (shape : Shape) (other : NodeId) :
    ((tree.recordNode id).setData id shape).parent? other = tree.parent? other := by
  rw [parent?, node?_setData, node?_recordNode, parent?]
  cases tree.node? other <;> rfl

/-- A node without children that gets other data without children leaves all slots as they were. -/
theorem children_rewrite {id : NodeId} {former shape : Shape} (found : tree.shape? id = some former)
    (before : former.children = []) (after : shape.children = []) (other : NodeId) :
    ((tree.recordNode id).setData id shape).children other = tree.children other := by
  have set := (tree.recordNode id).node?_setData id shape other
  rw [node?_recordNode] at set
  by_cases here : other = id
  · subst here
    obtain ⟨node, held, _⟩ := Option.map_eq_some_iff.mp found
    rw [held] at set
    rw [children_of_shape? found, before, children, shape?, set]
    simpa using after
  · simp only [here, if_false] at set
    rw [children, shape?, set, Option.map_map, children, shape?]
    rfl

theorem node?_append (tree : Tree) (node : Node) (other : NodeId) :
    (tree.append node).node? other = if other = ⟨tree.size⟩ then some node else tree.node? other := by
  rw [append, node?, Array.getElem?_push]
  simp only [← NodeId.index_inj]
  rfl

theorem node?_relink (tree : Tree) (id : NodeId) (link : Option Link) (other : NodeId) :
    (tree.relink id link).node? other = (tree.node? other).map fun node =>
      { node with parent := if other = id then link else node.parent } := by
  have set : (tree.setParent id link).node? other = (tree.node? other).map fun node =>
      { node with parent := if other = id then link else node.parent } := by
    rw [node?_setParent]
    simp only [NodeId.index_inj]
    by_cases here : id = other
    · simp [here]
    · simp [here, Ne.symm here]
  unfold relink
  dsimp only
  split
  · next same =>
      -- Nothing is written where the node points at the slot already.
      cases found : tree.node? other with
      | none => rfl
      | some node =>
          by_cases here : other = id
          · subst here
            have points : node.parent = link := by simpa [parent?, found] using same
            simp [← points]
          · simp [here]
  · split
    · exact set
    · exact set

theorem node?_unlink (tree : Tree) (id : NodeId) (expected : Option Link) (other : NodeId) :
    (tree.unlink id expected).node? other = (tree.node? other).map fun node =>
      { node with
        parent := if other = id ∧ node.parent = expected then none else node.parent } := by
  unfold unlink
  cases found : tree.node? other with
  | none =>
      split
      · rw [node?_setParent, found]
        split <;> rfl
      · exact found
  | some node =>
      by_cases here : other = id
      · subst here
        have points : tree.parent? other = node.parent := by simp [parent?, found]
        rw [points]
        split
        · next same => simp [node?_setParent, found, same]
        · next differs => simp [found, differs]
      · split
        · simp [node?_setParent, found, here, NodeId.index_inj, Ne.symm here]
        · simp [found, here]

theorem parent?_unlink_none (tree : Tree) (id other : NodeId) :
    (tree.unlink id none).parent? other = tree.parent? other := by
  rw [parent?, node?_unlink, parent?]
  cases tree.node? other with
  | none => rfl
  | some node => by_cases here : other = id ∧ node.parent = none <;> simp_all

theorem shape?_unlink (tree : Tree) (id : NodeId) (expected : Option Link) (other : NodeId) :
    (tree.unlink id expected).shape? other = tree.shape? other := by
  rw [shape?, node?_unlink, Option.map_map]
  rfl

theorem children_unlink (tree : Tree) (id : NodeId) (expected : Option Link) (other : NodeId) :
    (tree.unlink id expected).children other = tree.children other := by
  rw [children, shape?_unlink, children]

theorem node?_setRoot (tree : Tree) (id other : NodeId) :
    (tree.setRoot id).node? other = (tree.node? other).map fun node =>
      { node with parent := if other = id then none else node.parent } := by
  have set : (tree.setRoot id).node? other = (tree.setParent id none).node? other := rfl
  rw [set, node?_setParent]
  simp only [NodeId.index_inj]
  by_cases here : id = other
  · simp [here]
  · simp [here, Ne.symm here]

theorem shape?_setRoot (tree : Tree) (root id : NodeId) :
    (tree.setRoot root).shape? id = tree.shape? id := by
  rw [shape?, node?_setRoot, Option.map_map]
  rfl

theorem parent?_setRoot (tree : Tree) (id other : NodeId) :
    (tree.setRoot id).parent? other = if other = id then none else tree.parent? other := by
  rw [parent?, node?_setRoot, parent?]
  cases tree.node? other <;> by_cases here : other = id <;> simp [here]

theorem children_setRoot (tree : Tree) (id other : NodeId) :
    (tree.setRoot id).children other = tree.children other := by
  rw [children, shape?_setRoot, children]

theorem node?_foldl_relink (ids : List NodeId) (link : Option Link) (tree : Tree) (other : NodeId) :
    (ids.foldl (fun tree id => tree.relink id link) tree).node? other
      = (tree.node? other).map fun node =>
        { node with parent := if other ∈ ids then link else node.parent } := by
  induction ids generalizing tree with
  | nil => simp
  | cons id rest ih =>
      rw [List.foldl_cons, ih, node?_relink, Option.map_map]
      congr 1
      funext node
      by_cases here : other = id <;> by_cases later : other ∈ rest <;> simp [here, later]

theorem node?_foldl_unlink (ids : List NodeId) (link : Link) (tree : Tree) (other : NodeId) :
    (ids.foldl (fun tree id => tree.unlink id (some link)) tree).node? other
      = (tree.node? other).map fun node =>
        { node with
          parent := if other ∈ ids ∧ node.parent = some link then none else node.parent } := by
  induction ids generalizing tree with
  | nil => simp
  | cons id rest ih =>
      rw [List.foldl_cons, ih, node?_unlink, Option.map_map]
      congr 1
      funext node
      by_cases here : other = id <;> by_cases later : other ∈ rest <;>
        by_cases points : node.parent = some link <;> simp [here, later, points]

theorem node?_refill (tree : Tree) (link : Link) (shape : Shape) (dropped added : List NodeId)
    (id : NodeId) :
    (tree.refill link shape dropped added).node? id = (tree.node? id).map fun node =>
      { node with
        shape := if id = link.parent then shape else node.shape
        parent := if id ∈ added then some link
          else if id ∈ dropped ∧ node.parent = some link then none else node.parent } := by
  unfold refill
  dsimp only
  rw [node?_foldl_relink, node?_foldl_unlink, node?_setShape, node?_recordNode, Option.map_map,
    Option.map_map]
  rfl

theorem node?_refill_other {link : Link} {shape : Shape} {dropped added : List NodeId} {id : NodeId}
    (other : id ≠ link.parent) (early : id ∉ added) (stays : id ∉ dropped) :
    (tree.refill link shape dropped added).node? id = tree.node? id := by
  rw [node?_refill]
  cases tree.node? id <;> simp [other, early, stays]

theorem shape?_refill (tree : Tree) (link : Link) (shape : Shape) (dropped added : List NodeId)
    (id : NodeId) :
    (tree.refill link shape dropped added).shape? id
      = if id = link.parent then (tree.shape? id).map fun _ => shape else tree.shape? id := by
  rw [shape?, node?_refill, Option.map_map, shape?]
  split <;> cases tree.node? id <;> simp_all

theorem parent?_refill {link : Link} {shape : Shape} {dropped added : List NodeId} {id : NodeId}
    (inside : ∀ id ∈ added, tree.contains id) :
    (tree.refill link shape dropped added).parent? id = if id ∈ added then some link
      else if id ∈ dropped ∧ tree.parent? id = some link then none else tree.parent? id := by
  rw [parent?, node?_refill, parent?]
  cases found : tree.node? id with
  | some node => rfl
  | none =>
      have absent : id ∉ added := by
        intro member
        obtain ⟨node, present⟩ := node?_of_contains (inside id member)
        rw [found] at present
        cases present
      simp [absent]

/-- A back-reference is the slot that was refilled, or is as it was. -/
theorem parent?_refill_some {link target : Link} {shape : Shape} {dropped added : List NodeId}
    {id : NodeId} (named : (tree.refill link shape dropped added).parent? id = some target) :
    id ∈ added ∧ target = link
      ∨ id ∉ added ∧ tree.parent? id = some target ∧ ¬ (id ∈ dropped ∧ target = link) := by
  rw [parent?, node?_refill] at named
  obtain ⟨_, moved, points⟩ := Option.bind_eq_some_iff.mp named
  obtain ⟨node, found, rfl⟩ := Option.map_eq_some_iff.mp moved
  have former : tree.parent? id = node.parent := by simp [parent?, found]
  rw [former]
  dsimp only at points
  by_cases enters : id ∈ added
  · rw [if_pos enters] at points
    exact Or.inl ⟨enters, (Option.some.inj points).symm⟩
  · rw [if_neg enters] at points
    by_cases leaves : id ∈ dropped ∧ node.parent = some link
    · rw [if_pos leaves] at points
      cases points
    · rw [if_neg leaves] at points
      refine Or.inr ⟨enters, points, ?_⟩
      rintro ⟨drops, rfl⟩
      exact leaves ⟨drops, points⟩

theorem children_refill_other {link : Link} {shape : Shape} {dropped added : List NodeId}
    {id : NodeId} (other : id ≠ link.parent) :
    (tree.refill link shape dropped added).children id = tree.children id := by
  rw [children, shape?_refill, if_neg other, children]

theorem children_refill {link : Link} {former shape : Shape} {dropped added : List NodeId}
    (found : tree.shape? link.parent = some former) :
    (tree.refill link shape dropped added).children link.parent = shape.children := by
  rw [children, shape?_refill, if_pos rfl, found]
  rfl

/-- What leaves a slot stood in it. -/
theorem child_of_gone {link : Link} {shape : Shape} {former filled : Storage}
    {gone kept dropped added : List NodeId} {id : NodeId}
    (found : tree.shape? link.parent = some shape) (holds : shape.storage? link.slot = some former)
    (exchange : former.Exchange filled gone kept dropped added) (leaves : id ∈ gone) :
    (link.slot, id) ∈ tree.children link.parent := by
  rw [children_of_shape? found, Shape.mem_children_slot holds, exchange.leaves.mem_iff]
  exact List.mem_append_left _ leaves

theorem keeps_refill_other {link : Link} {shape : Shape} {dropped added : List NodeId}
    {parent : NodeId} (other : parent ≠ link.parent) (keeps : tree.Keeps parent)
    (inside : ∀ id ∈ added, tree.contains id)
    (apart : ∀ child ∈ tree.children parent, child.2 ∉ added) :
    (tree.refill link shape dropped added).Keeps parent := by
  constructor
  · rw [children_refill_other other]
    intro child held
    have named := keeps.named child held
    have elsewhere : tree.parent? child.2 ≠ some link := by
      rw [named]
      rintro ⟨rfl⟩
      exact other rfl
    rw [parent?_refill inside, if_neg (apart child held), if_neg (fun dropped => elsewhere dropped.2)]
    exact named
  · rw [children_refill_other other]
    exact keeps.nodup

/-- The slot is filled with nodes that its holder did not have, and with some that just left it. -/
theorem keeps_refill {link : Link} {shape : Shape} {former filled : Storage}
    {gone kept dropped added : List NodeId} (found : tree.shape? link.parent = some shape)
    (holds : shape.storage? link.slot = some former)
    (exchange : former.Exchange filled gone kept dropped added) (keeps : tree.Keeps link.parent)
    (inside : ∀ id ∈ added, tree.contains id) (nodup : added.Nodup)
    (apart : ∀ id ∈ added, id ∈ (tree.children link.parent).map Prod.snd → id ∈ gone) :
    (tree.refill link (shape.store link.slot filled) dropped added).Keeps link.parent := by
  have before := children_of_shape? found
  have former_ids := (Shape.ids_perm holds).trans (exchange.leaves.append_right _)
  have filled_ids := (Shape.ids_store_perm holds exchange.alike).trans
    (exchange.enters.append_right _)
  rw [List.append_assoc] at former_ids filled_ids
  have distinct := keeps.nodup
  rw [before] at apart distinct
  obtain ⟨_, staying, leaving⟩ := List.nodup_append.mp (former_ids.nodup_iff.mp distinct)
  -- What the holder keeps neither enters nor leaves, so that its back-references stay.
  have stays : ∀ id ∈ kept ++ (shape.children.filter fun child => child.1 ≠ link.slot).map Prod.snd,
      id ∉ added ∧ id ∉ dropped := by
    intro id member
    have among : id ∈ shape.children.map Prod.snd :=
      former_ids.mem_iff.mpr (List.mem_append_right _ member)
    constructor
    · intro enters
      exact leaving id (apart id enters among) id member rfl
    · intro leaves
      exact leaving id ((exchange.drops id).mp leaves).1 id member rfl
  constructor
  · rw [children_refill found]
    rintro ⟨slot, id⟩ held
    by_cases here : slot = link.slot
    · subst here
      have filled_id := (Shape.mem_children_slot (Shape.storage?_store holds exchange.alike)).mp held
      rcases List.mem_append.mp (exchange.enters.mem_iff.mp filled_id) with enters | remains
      · rw [parent?_refill inside, if_pos enters]
      · obtain ⟨old, undropped⟩ := stays id (List.mem_append_left _ remains)
        have member : (link.slot, id) ∈ shape.children :=
          (Shape.mem_children_slot holds).mpr (exchange.leaves.mem_iff.mpr
            (List.mem_append_right _ remains))
        rw [parent?_refill inside, if_neg old, if_neg (fun drops => undropped drops.1)]
        exact keeps.named _ (before ▸ member)
    · have member : (slot, id) ∈ shape.children := (Shape.mem_children_other here).mp held
      have other : id ∈ (shape.children.filter fun child => child.1 ≠ link.slot).map Prod.snd :=
        List.mem_map.mpr ⟨(slot, id), by simp [member, here], rfl⟩
      obtain ⟨old, undropped⟩ := stays id (List.mem_append_right _ other)
      rw [parent?_refill inside, if_neg old, if_neg (fun drops => undropped drops.1)]
      exact keeps.named _ (before ▸ member)
  · rw [children_refill found, filled_ids.nodup_iff, List.nodup_append]
    refine ⟨nodup, staying, ?_⟩
    rintro id enters other member rfl
    exact (stays id member).1 enters

/-! ### Nodes after one is added -/

theorem bare_adopt (tree : Tree) (parent : NodeId) (children : List (Slot × NodeId)) (other : NodeId) :
    ((tree.adopt parent children).node? other).map Node.bare = (tree.node? other).map Node.bare := by
  induction children generalizing tree with
  | nil => rfl
  | cons child rest ih =>
      have unrolled : tree.adopt parent (child :: rest)
          = (tree.relink child.2 (some ⟨parent, child.1⟩)).adopt parent rest := rfl
      rw [unrolled, ih, node?_relink, Option.map_map]
      rfl

theorem shape?_adopt (tree : Tree) (parent : NodeId) (children : List (Slot × NodeId)) (id : NodeId) :
    (tree.adopt parent children).shape? id = tree.shape? id := by
  have bares := congrArg (Option.map Node.shape) (tree.bare_adopt parent children id)
  rw [Option.map_map, Option.map_map] at bares
  exact bares

/-- The shapes of an arena with a new node, whichever of its children it has taken. -/
theorem shape?_taking (tree : Tree) (shape : Shape) (taken : List (Slot × NodeId)) (id : NodeId) :
    ((tree.append { shape }).adopt ⟨tree.size⟩ taken).shape? id
      = if id = ⟨tree.size⟩ then some shape else tree.shape? id := by
  rw [shape?_adopt, shape?, node?_append]
  split <;> rfl

theorem node?_adopt_other (tree : Tree) (parent : NodeId) {children : List (Slot × NodeId)}
    {other : NodeId} (apart : other ∉ children.map Prod.snd) :
    (tree.adopt parent children).node? other = tree.node? other := by
  induction children generalizing tree with
  | nil => rfl
  | cons child rest ih =>
      rw [List.map_cons, List.mem_cons, not_or] at apart
      have unrolled : tree.adopt parent (child :: rest)
          = (tree.relink child.2 (some ⟨parent, child.1⟩)).adopt parent rest := rfl
      rw [unrolled, ih _ apart.2, node?_relink]
      simp [apart.1]

theorem parent?_adopt (tree : Tree) (parent : NodeId) {children : List (Slot × NodeId)}
    (nodup : (children.map Prod.snd).Nodup) {slot : Slot} {id : NodeId}
    (member : (slot, id) ∈ children) (inside : tree.contains id) :
    (tree.adopt parent children).parent? id = some ⟨parent, slot⟩ := by
  induction children generalizing tree with
  | nil => cases member
  | cons child rest ih =>
      obtain ⟨apart, nodupRest⟩ := List.nodup_cons.mp nodup
      have unrolled : tree.adopt parent (child :: rest)
          = (tree.relink child.2 (some ⟨parent, child.1⟩)).adopt parent rest := rfl
      rw [unrolled]
      rcases List.mem_cons.mp member with rfl | later
      · obtain ⟨node, found⟩ := node?_of_contains inside
        rw [parent?, node?_adopt_other _ parent apart, node?_relink, found]
        simp
      · exact ih _ nodupRest later (by rwa [(tree.framed_relink child.2 _).contains])

/-- A back-reference after nodes were taken was there before, or is that of one of them. -/
theorem parent?_adopt_some {parent id : NodeId} {children : List (Slot × NodeId)} {link : Link}
    (named : (tree.adopt parent children).parent? id = some link) :
    tree.parent? id = some link ∨ link.parent = parent ∧ (link.slot, id) ∈ children := by
  induction children generalizing tree with
  | nil => exact Or.inl named
  | cons child rest ih =>
      rcases ih named with before | ⟨same, member⟩
      · rw [parent?, node?_relink] at before
        obtain ⟨_, moved, points⟩ := Option.bind_eq_some_iff.mp before
        obtain ⟨node, found, rfl⟩ := Option.map_eq_some_iff.mp moved
        dsimp only at points
        by_cases here : id = child.2
        · rw [if_pos here] at points
          cases points
          exact Or.inr ⟨rfl, here ▸ List.mem_cons_self⟩
        · rw [if_neg here] at points
          left
          rw [parent?, found]
          exact points
      · exact Or.inr ⟨same, List.mem_cons_of_mem _ member⟩

/-- Taking a child that points elsewhere counts. -/
theorem revision_adopt_lt (tree : Tree) {parent : NodeId} {children : List (Slot × NodeId)}
    {child : Slot × NodeId} (member : child ∈ children) {link : Link}
    (named : tree.parent? child.2 = some link) (other : link.parent ≠ parent) :
    tree.revision < (tree.adopt parent children).revision := by
  induction children generalizing tree with
  | nil => cases member
  | cons first rest ih =>
      have unrolled : tree.adopt parent (first :: rest)
          = (tree.relink first.2 (some ⟨parent, first.1⟩)).adopt parent rest := rfl
      rw [unrolled]
      by_cases here : first.2 = child.2
      · have moves : tree.parent? first.2 ≠ some ⟨parent, first.1⟩ := by
          rw [here, named]
          rintro ⟨rfl⟩
          exact other rfl
        have counted : tree.revision < (tree.relink first.2 (some ⟨parent, first.1⟩)).revision := by
          rw [relink]
          dsimp only
          rw [if_neg moves, here, named, if_pos Option.isSome_some]
          exact Nat.lt_succ_of_le (revision_respected.setParent tree _ _)
        exact Nat.lt_of_lt_of_le counted (revision_respected.adopt _ parent rest)
      · have later : child ∈ rest := by
          rcases List.mem_cons.mp member with rfl | later
          · exact absurd rfl here
          · exact later
        have still : (tree.relink first.2 (some ⟨parent, first.1⟩)).parent? child.2 = some link := by
          rw [← named, parent?, node?_relink, parent?]
          cases tree.node? child.2 <;> simp [Ne.symm here]
        exact Nat.lt_of_le_of_lt (revision_respected.relink tree _ _) (ih _ later still)

-- The arena with a new node, and its children pointed at it.
def added (tree : Tree) (shape : Shape) : Tree :=
  (tree.append { shape }).adopt ⟨tree.size⟩ shape.children

theorem size_added (tree : Tree) (shape : Shape) : (tree.added shape).size = tree.size + 1 := by
  rw [added, (framed_adopt _ _ _).size, append, size, Array.size_push, size]

theorem root_added (tree : Tree) (shape : Shape) : (tree.added shape).root = tree.root :=
  (framed_adopt _ _ _).root

theorem source_added (tree : Tree) (shape : Shape) : (tree.added shape).source = tree.source :=
  (framed_adopt _ _ _).source

theorem revision_added (tree : Tree) (shape : Shape) :
    tree.revision ≤ (tree.added shape).revision :=
  revision_respected.trans (revision_respected.append tree shape)
    (revision_respected.adopt _ _ shape.children)

theorem bare_added (tree : Tree) (shape : Shape) (id : NodeId) :
    ((tree.added shape).node? id).map Node.bare
      = if id = ⟨tree.size⟩ then some { shape } else (tree.node? id).map Node.bare := by
  rw [added, bare_adopt, node?_append]
  split <;> rfl

theorem shape?_added (tree : Tree) (shape : Shape) (id : NodeId) :
    (tree.added shape).shape? id = if id = ⟨tree.size⟩ then some shape else tree.shape? id :=
  tree.shape?_taking shape shape.children id

theorem node?_added_other (tree : Tree) {shape : Shape} {id : NodeId} (old : id ≠ ⟨tree.size⟩)
    (apart : id ∉ shape.children.map Prod.snd) :
    (tree.added shape).node? id = tree.node? id := by
  rw [added, node?_adopt_other _ _ apart, node?_append, if_neg old]

theorem parent?_added_child {shape : Shape} (inside : ∀ child ∈ shape.children, tree.contains child.2)
    (nodup : (shape.children.map Prod.snd).Nodup) {child : Slot × NodeId}
    (member : child ∈ shape.children) :
    (tree.added shape).parent? child.2 = some ⟨⟨tree.size⟩, child.1⟩ := by
  apply parent?_adopt _ _ nodup member
  have early : child.2.index < tree.size := contains_iff.mp (inside child member)
  rw [contains_iff, append, size, Array.size_push]
  exact Nat.lt_succ_of_lt early

theorem parent?_added_other {shape : Shape} {id : NodeId}
    (apart : id ∉ shape.children.map Prod.snd) :
    (tree.added shape).parent? id = tree.parent? id := by
  by_cases new : id = ⟨tree.size⟩
  · subst new
    rw [added, parent?, node?_adopt_other _ _ apart, node?_append, if_pos rfl, parent?, node?_next]
    rfl
  · rw [parent?, node?_added_other tree new apart, parent?]

theorem children_added_new (tree : Tree) (shape : Shape) :
    (tree.added shape).children ⟨tree.size⟩ = shape.children := by
  rw [children, shape?_added, if_pos rfl]

theorem children_added_old (tree : Tree) (shape : Shape) {id : NodeId} (old : id ≠ ⟨tree.size⟩) :
    (tree.added shape).children id = tree.children id := by
  rw [children, shape?_added, if_neg old, children]

theorem keeps_added_new {shape : Shape} (inside : ∀ child ∈ shape.children, tree.contains child.2)
    (nodup : (shape.children.map Prod.snd).Nodup) : (tree.added shape).Keeps ⟨tree.size⟩ := by
  constructor
  · rw [children_added_new]
    intro child member
    exact parent?_added_child inside nodup member
  · rw [children_added_new]
    exact nodup

theorem keeps_added_old {shape : Shape} {parent : NodeId} (old : parent ≠ ⟨tree.size⟩)
    (keeps : tree.Keeps parent)
    (apart : ∀ child ∈ tree.children parent, child.2 ∉ shape.children.map Prod.snd) :
    (tree.added shape).Keeps parent := by
  constructor
  · rw [children_added_old tree shape old]
    intro child held
    rw [parent?_added_other (apart child held)]
    exact keeps.named child held
  · rw [children_added_old tree shape old]
    exact keeps.nodup

end Tree

/-! ### Edits that answer -/

namespace Edit

variable {α : Type} {tree : Tree}

theorem run_relink_inside {id : NodeId} (inside : tree.contains id) (link : Option Link) :
    (relink id link).run tree = (.ok (), tree.relink id link) := by
  obtain ⟨node, found⟩ := Tree.node?_of_contains inside
  rw [relink, run_bind_ok (run_node_some found), run_modify]

theorem run_unlink_inside {id : NodeId} (inside : tree.contains id) (expected : Option Link) :
    (unlink id expected).run tree = (.ok (), tree.unlink id expected) := by
  obtain ⟨node, found⟩ := Tree.node?_of_contains inside
  rw [unlink, run_bind_ok (run_node_some found), run_modify]

theorem run_forM_inside {step : α → Edit Unit} {change : Tree → α → Tree} {values : List α}
    (stays : ∀ (tree : Tree) (value : α), tree.Framed (change tree value))
    (each : ∀ value ∈ values, ∀ other, tree.Framed other →
      (step value).run other = (.ok (), change other value)) :
    (values.forM step).run tree = (.ok (), values.foldl change tree) := by
  induction values generalizing tree with
  | nil => rfl
  | cons value rest ih =>
      have unrolled : (value :: rest).forM step = step value >>= fun _ => rest.forM step := rfl
      have first := each value List.mem_cons_self tree (Tree.framed_ordered.refl tree)
      rw [unrolled, run_bind_ok first]
      apply ih
      intro later member other framed
      exact each later (List.mem_cons_of_mem _ member) other
        (Tree.framed_ordered.trans (stays tree value) framed)

theorem run_forM_relink_inside {ids : List NodeId} (inside : ∀ id ∈ ids, tree.contains id)
    (link : Option Link) :
    (ids.forM fun id => relink id link).run tree
      = (.ok (), ids.foldl (fun tree id => tree.relink id link) tree) := by
  apply run_forM_inside (fun tree id => tree.framed_relink id link)
  intro id member other framed
  exact run_relink_inside (by rw [framed.contains]; exact inside id member) link

theorem run_forM_unlink_inside {ids : List NodeId} (inside : ∀ id ∈ ids, tree.contains id)
    (expected : Option Link) :
    (ids.forM fun id => unlink id expected).run tree
      = (.ok (), ids.foldl (fun tree id => tree.unlink id expected) tree) := by
  apply run_forM_inside (fun tree id => tree.framed_unlink id expected)
  intro id member other framed
  exact run_unlink_inside (by rw [framed.contains]; exact inside id member) expected

theorem run_alloc_inside {shape : Shape} (inside : ∀ child ∈ shape.children, tree.contains child.2) :
    (alloc shape).run tree = (.ok ⟨tree.size⟩, tree.added shape) := by
  have adopts : (shape.children.forM fun child =>
        relink child.2 (some ⟨⟨tree.size⟩, child.1⟩)).run (tree.append { shape })
      = (.ok (), tree.added shape) := by
    apply run_forM_inside (fun (arena : Tree) (child : Slot × NodeId) =>
      arena.framed_relink child.2 (some ⟨⟨tree.size⟩, child.1⟩))
    intro child member other framed
    apply run_relink_inside
    rw [framed.contains, Tree.contains_iff, Tree.append, Tree.size, Array.size_push]
    exact Nat.lt_succ_of_lt (Tree.contains_iff.mp (inside child member))
  rw [alloc, run_bind_ok (run_get tree), run_bind_ok (run_modify ..), run_bind_ok adopts]
  rfl

/-! An edit whose slot is there writes it. -/

theorem run_openSlot {link : Link} {shape : Shape} {storage : Storage}
    (found : tree.shape? link.parent = some shape) (holds : shape.storage? link.slot = some storage) :
    (openSlot link).run tree = (.ok (shape, storage), tree.recordNode link.parent) := by
  obtain ⟨node, held, rfl⟩ := Option.map_eq_some_iff.mp found
  rw [openSlot, run_bind_ok (run_node_some held), run_bind_ok (run_modify ..), holds]
  rfl

theorem run_refill_inside {link : Link} {shape : Shape} {dropped added : List NodeId}
    (leaving : ∀ id ∈ dropped, tree.contains id) (entering : ∀ id ∈ added, tree.contains id) :
    (refill link shape dropped added).run (tree.recordNode link.parent)
      = (.ok (), (tree.refill link shape dropped added).bump) := by
  have stored : tree.Framed ((tree.recordNode link.parent).setShape link.parent shape) :=
    Tree.framed_ordered.trans (tree.framed_recordNode link.parent) (Tree.framed_setShape _ _ _)
  have cleared := Tree.framed_ordered.foldl _
    (fun tree id => Tree.framed_unlink tree id (some link)) dropped
    ((tree.recordNode link.parent).setShape link.parent shape)
  rw [refill, run_bind_ok (run_modify ..)]
  rw [run_bind_ok (run_forM_unlink_inside (fun id member => by
    rw [stored.contains]; exact leaving id member) (some link))]
  rw [run_bind_ok (run_forM_relink_inside (fun id member => by
    rw [cleared.contains, stored.contains]; exact entering id member) (some link))]
  rfl

variable {link : Link} {shape : Shape} {storage filled : Storage}

theorem run_replaceAt {old new : NodeId} (found : tree.shape? link.parent = some shape)
    (holds : shape.storage? link.slot = some storage) (differ : old ≠ new)
    (replaced : storage.replace? old new = some filled) (leaving : tree.contains old)
    (entering : tree.contains new) :
    (replaceAt (some link) old new).run tree
      = (.ok (), (tree.refill link (shape.store link.slot filled) [old] [new]).bump) := by
  have refills : (refill link (shape.store link.slot filled) [old] [new]).run
      (tree.recordNode link.parent)
        = (.ok (), (tree.refill link (shape.store link.slot filled) [old] [new]).bump) :=
    run_refill_inside (by simpa using leaving) (by simpa using entering)
  rw [refill, forM_one, forM_one] at refills
  rw [replaceAt, if_neg differ, run_bind_ok (run_openSlot found holds)]
  dsimp only
  rw [replaced]
  exact refills

theorem run_removeAt {id : NodeId} (found : tree.shape? link.parent = some shape)
    (holds : shape.storage? link.slot = some storage) (free : link.slot.arity ≠ .required)
    (removed : storage.remove? id = some filled) (leaving : tree.contains id) :
    (removeAt (some link) id).run tree
      = (.ok (), (tree.refill link (shape.store link.slot filled) [id] []).bump) := by
  have refills : (refill link (shape.store link.slot filled) [id] []).run
      (tree.recordNode link.parent)
        = (.ok (), (tree.refill link (shape.store link.slot filled) [id] []).bump) :=
    run_refill_inside (by simpa using leaving) nofun
  rw [refill, forM_one] at refills
  rw [removeAt]
  dsimp only
  rw [if_neg free, run_bind_ok (run_openSlot found holds)]
  dsimp only
  rw [removed]
  exact refills

end Edit

end Codemod
