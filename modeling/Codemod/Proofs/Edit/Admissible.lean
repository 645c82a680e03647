import Codemod.Proofs.Tree.Forest

/-!
Edits that keep the arena a forest. An edit is admissible when it is given its node's own place, and
for new content only nodes that no slot holds and that do not stand above the place. Main statement:
an admissible edit leaves a forest, however it ends, and one that answers frees what it displaced and
moves nothing but what it was given (`Tree.forest_of_admissible`).
-/

namespace Codemod

open Step

namespace Operation

def displaced (tree : Tree) : Operation → List NodeId
  | .replace old new | .replaceAt _ old new => if old = new then [] else [old]
  | .remove id | .removeAt _ id => [id]
  | .spliceAt _ id replacement => if id ∈ replacement then [] else [id]
  | .setOptional parent slot id => (tree.childrenIn parent slot).filter fun held => some held ≠ id
  | .alloc _ | .construct _ | .setName .. | .setLeaf .. | .insert .. | .push .. => []

def placed : Operation → List NodeId
  | .alloc shape => shape.children.map Prod.snd
  | .replace old new | .replaceAt _ old new => if old = new then [] else [new]
  | .spliceAt _ _ replacement => replacement
  | .insert _ _ _ id | .push _ _ id => [id]
  | .setOptional _ _ id => id.toList
  | .construct _ | .setName .. | .setLeaf .. | .remove _ | .removeAt .. => []

/-- New content is placeable and given once, and a node is taken from where it is. A construction is
left to the nodes it adds one by one. -/
def Admissible (tree : Tree) : Operation → Prop
  | .alloc shape => (shape.children.map Prod.snd).Nodup
      ∧ ∀ child ∈ shape.children, tree.Placeable none child.2
  | .construct _ => False
  | .setName .. | .setLeaf .. | .remove _ => True
  | .replace old new => tree.Placeable ((tree.parent? old).map Link.parent) new
  | .replaceAt link old new =>
      link = tree.parent? old ∧ tree.Placeable (link.map Link.parent) new
  | .removeAt link id => link = tree.parent? id
  | .spliceAt link id replacement => link = tree.parent? id ∧ replacement.Nodup
      ∧ ∀ new ∈ replacement, tree.Placeable (link.map Link.parent) new ∨ new = id
  | .insert parent _ _ id | .push parent _ id => tree.Placeable (some parent) id
  | .setOptional parent _ id => ∀ new ∈ id, tree.Placeable (some parent) new

end Operation

/-- A forest is left. If the edit answered, what it displaced is held by no slot, what it placed is
held or is the root, and all other back-references are as they were. -/
structure Orderly (tree : Tree) (displaced placed : List NodeId)
    (result : Except Fault Unit × Tree) : Prop where
  forest : result.2.Forest
  freed : result.1 = .ok () → ∀ id ∈ displaced, result.2.Unheld id
  settled : result.1 = .ok () → ∀ id ∈ placed, id = result.2.root ∨ ¬ result.2.Unheld id
  still : result.1 = .ok () → ∀ id, id ∉ displaced → id ∉ placed →
    result.2.parent? id = tree.parent? id

namespace Edit

variable {tree : Tree} {displaced placed : List NodeId}

theorem orderly_refused {after : Tree} (forest : after.Forest) (fault : Fault) :
    Orderly tree displaced placed (.error fault, after) :=
  ⟨forest, nofun, nofun, nofun⟩

theorem orderly_error (forest : tree.Forest) (fault : Fault) {after : Tree}
    (same : after.commit = tree.commit) : Orderly tree displaced placed (.error fault, after) :=
  orderly_refused (forest.of_commit same) fault

theorem orderly_idle (forest : tree.Forest) {after : Tree} (same : after.commit = tree.commit) :
    Orderly tree [] [] (.ok (), after) := by
  refine ⟨forest.of_commit same, nofun, nofun, ?_⟩
  intro _ id _ _
  rw [Tree.parent?, Tree.node?, Tree.nodes_of_commit same]
  rfl

theorem orderly_refill (forest : tree.Forest) {link : Link} {shape : Shape}
    {former filled : Storage} {gone kept : List NodeId}
    (found : tree.shape? link.parent = some shape) (holds : shape.storage? link.slot = some former)
    (exchange : former.Exchange filled gone kept displaced placed) (nodup : placed.Nodup)
    (fits : ∀ id ∈ placed, tree.Placeable (some link.parent) id ∨ id ∈ gone) :
    Orderly tree displaced placed ((refill link (shape.store link.slot filled) displaced placed).run
      (tree.recordNode link.parent)) := by
  have entering : ∀ id ∈ placed, tree.contains id := fun _ enters =>
    forest.contains_added found holds exchange fits enters
  have leaving : ∀ id ∈ displaced, tree.contains id := fun id leaves =>
    forest.contains (Tree.child_of_gone found holds exchange ((exchange.drops id).mp leaves).1)
  have after := forest.refill found holds exchange fits nodup
  rw [run_refill_inside leaving entering]
  have links : ∀ id, ((tree.refill link (shape.store link.slot filled) displaced placed).bump).parent? id
      = (tree.refill link (shape.store link.slot filled) displaced placed).parent? id := fun _ => rfl
  have bumped : ((tree.refill link (shape.store link.slot filled) displaced placed).bump).Forest :=
    after.alike (fun _ => rfl) links after.root
  refine ⟨bumped, ?_, ?_, ?_⟩
  · intro _ id leaves
    obtain ⟨went, absent⟩ := (exchange.drops id).mp leaves
    have named := (forest.holds link.parent).named _ (Tree.child_of_gone found holds exchange went)
    rw [bumped.unheld_iff_parent?, links, Tree.parent?_refill entering, if_neg absent,
      if_pos ⟨leaves, named⟩]
  · intro _ id enters
    right
    rw [bumped.unheld_iff_parent?, links, Tree.parent?_refill entering, if_pos enters]
    nofun
  · intro _ id leaves enters
    rw [links, Tree.parent?_refill entering, if_neg enters, if_neg (fun drops => leaves drops.1)]

theorem orderly_openSlot (forest : tree.Forest) (link : Link) (next : Shape × Storage → Edit Unit)
    (each : ∀ shape storage, tree.shape? link.parent = some shape →
      shape.storage? link.slot = some storage →
      Orderly tree displaced placed ((next (shape, storage)).run (tree.recordNode link.parent))) :
    Orderly tree displaced placed ((openSlot link >>= next).run tree) := by
  cases found : tree.node? link.parent with
  | none =>
      have stops : (openSlot link).run tree = (.error (.missing tree.size link.parent.index), tree) := by
        rw [openSlot, run_bind_error (run_node_none found)]
      rw [run_bind_error stops]
      exact orderly_error forest _ rfl
  | some node =>
      have shaped := shape?_of_node? found
      cases holds : node.shape.storage? link.slot with
      | some storage =>
          rw [run_bind_ok (run_openSlot shaped holds)]
          exact each node.shape storage shaped holds
      | none =>
          have refuses : (openSlot link).run tree
              = (.error (.rejected (.noSuchSlot node.shape.kind link.slot)),
                tree.recordNode link.parent) := by
            rw [openSlot, run_bind_ok (run_node_some found), run_bind_ok (run_modify ..), holds]
            rfl
          rw [run_bind_error refuses]
          exact orderly_error forest _ (tree.commit_recordNode _)

theorem orderly_change (forest : tree.Forest) {link : Link} {shape : Shape} {former filled : Storage}
    (found : tree.shape? link.parent = some shape) (holds : shape.storage? link.slot = some former)
    (change : former.Change link.slot filled displaced placed) (nodup : placed.Nodup)
    (fits : ∀ id ∈ placed, tree.Placeable (some link.parent) id) :
    Orderly tree displaced placed ((refill link (shape.store link.slot filled) displaced placed).run
      (tree.recordNode link.parent)) := by
  obtain ⟨gone, kept, exchange⟩ := change.exchange
  exact orderly_refill forest found holds exchange nodup fun id enters => Or.inl (fits id enters)

theorem orderly_reroot (forest : tree.Forest) {new : NodeId} (fits : tree.Placeable none new) :
    Orderly tree [tree.root] [new] ((replaceAt none tree.root new).run tree) := by
  have rooted : ∀ id, (tree.setRoot new).parent? id = tree.parent? id := by
    intro id
    by_cases here : id = new
    · subst here
      rw [Tree.parent?_setRoot, if_pos rfl, forest.unnamed fits.unheld]
    · rw [Tree.parent?_setRoot, if_neg here]
  -- What takes the root was held by nothing and named no parent, so no name has to change.
  have moved : (tree.setRoot new).Forest :=
    forest.alike (tree.children_setRoot new) rooted fits.unheld
  obtain ⟨node, found⟩ := Tree.node?_of_contains fits.inside
  rw [replaceAt, if_neg fits.rootless.symm]
  dsimp only
  rw [run_bind_ok (run_get tree), if_neg (fun foreign => foreign rfl),
    run_bind_ok (run_node_some found), run_bind_ok (run_set ..)]
  rcases run_unlink tree.root none (tree.setRoot new) with unlinks | ⟨_, stops⟩
  · rw [run_bind_ok unlinks]
    have links : ∀ id, ((tree.setRoot new).unlink tree.root none).bump.parent? id = tree.parent? id := by
      intro id
      rw [← rooted id]
      exact Tree.parent?_unlink_none _ _ _
    have slots : ∀ id, ((tree.setRoot new).unlink tree.root none).bump.children id
        = tree.children id := by
      intro id
      rw [← tree.children_setRoot new id]
      exact Tree.children_unlink _ _ _ _
    have root : ((tree.setRoot new).unlink tree.root none).bump.root = new :=
      (Tree.framed_unlink _ _ _).root
    have after := forest.alike slots links (root.symm ▸ fits.unheld)
    refine ⟨after, ?_, ?_, ?_⟩
    · intro _ id leaves
      cases List.mem_singleton.mp leaves
      exact after.unheld_iff_parent?.mpr ((links _).trans (forest.unnamed forest.root))
    · intro _ id enters
      cases List.mem_singleton.mp enters
      exact Or.inl root.symm
    · intro _ id _ _
      exact links id
  · rw [run_bind_error stops]
    exact orderly_refused moved _

theorem orderly_replaceAt (forest : tree.Forest) {old new : NodeId}
    (fits : tree.Placeable ((tree.parent? old).map Link.parent) new) :
    Orderly tree (if old = new then [] else [old]) (if old = new then [] else [new])
      ((replaceAt (tree.parent? old) old new).run tree) := by
  by_cases same : old = new
  · simp only [replaceAt, same, if_true]
    exact orderly_idle forest rfl
  simp only [same, if_false]
  cases named : tree.parent? old with
  | none =>
      rw [named] at fits
      by_cases atRoot : old = tree.root
      · subst atRoot
        exact orderly_reroot forest fits
      · have refuses : (replaceAt none old new).run tree
            = (.error (.rejected (.invalidRemoval old none)), tree) := by
          rw [replaceAt, if_neg same]
          dsimp only
          rw [run_bind_ok (run_get tree), if_pos atRoot]
          rfl
        rw [refuses]
        exact orderly_error forest _ rfl
  | some link =>
      rw [named] at fits
      rw [replaceAt, if_neg same]
      apply orderly_openSlot forest
      intro shape storage found holds
      dsimp only
      cases replaced : storage.replace? old new with
      | none => exact orderly_error forest _ (tree.commit_recordNode _)
      | some filled =>
          have spelled := orderly_change forest found holds (.replaced same replaced)
            (by simp) (by simpa using fits)
          rwa [refill, forM_one, forM_one] at spelled

theorem orderly_removeAt (forest : tree.Forest) (link : Option Link) (id : NodeId) :
    Orderly tree [id] [] ((removeAt link id).run tree) := by
  cases link with
  | none => exact orderly_error forest _ rfl
  | some link =>
      rw [removeAt]
      dsimp only
      by_cases required : link.slot.arity = .required
      · rw [if_pos required]
        exact orderly_error forest _ rfl
      rw [if_neg required]
      apply orderly_openSlot forest
      intro shape storage found holds
      dsimp only
      cases removed : storage.remove? id with
      | none => exact orderly_error forest _ (tree.commit_recordNode _)
      | some filled =>
          have spelled := orderly_change forest found holds (.removed required removed)
            List.nodup_nil (List.forall_mem_nil _)
          rwa [refill, forM_one] at spelled

theorem orderly_spliceAt (forest : tree.Forest) {link : Option Link} {id : NodeId}
    {replacement : List NodeId} (nodup : replacement.Nodup)
    (fits : ∀ new ∈ replacement, tree.Placeable (link.map Link.parent) new ∨ new = id) :
    Orderly tree (if id ∈ replacement then [] else [id]) replacement
      ((spliceAt link id replacement).run tree) := by
  cases link with
  | none => exact orderly_error forest _ rfl
  | some link =>
      rw [spliceAt]
      dsimp only
      by_cases list : link.slot.arity ≠ .list
      · rw [if_pos list]
        exact orderly_error forest _ rfl
      rw [if_neg list]
      apply orderly_openSlot forest
      intro shape storage found holds
      cases storage with
      | many held =>
          dsimp only
          by_cases foreign : id ∉ held
          · rw [if_pos foreign]
            exact orderly_error forest _ (tree.commit_recordNode _)
          rw [if_neg foreign]
          have spelled := orderly_refill forest found holds
            (Storage.exchange_spliced (Decidable.not_not.mp foreign)) nodup
            (fun new enters => (fits new enters).imp_right List.mem_singleton.mpr)
          by_cases back : id ∈ replacement
          · rw [refill, if_pos back] at spelled
            rw [if_pos back, if_neg (fun absent => absent back)]
            exact spelled
          · rw [refill, if_neg back, forM_one] at spelled
            rw [if_neg back, if_pos back]
            exact spelled
      | _ => exact orderly_error forest _ (tree.commit_recordNode _)

theorem orderly_insert (forest : tree.Forest) {parent : NodeId} (slot : Slot) (index : Nat)
    {id : NodeId} (fits : tree.Placeable (some parent) id) :
    Orderly tree [] [id] ((insert parent slot index id).run tree) := by
  rw [insert]
  by_cases single : slot.arity ≠ .list
  · rw [if_pos single]
    exact orderly_error forest _ rfl
  rw [if_neg single]
  apply orderly_openSlot forest
  intro shape storage found holds
  cases storage with
  | many held =>
      dsimp only
      by_cases beyond : held.length < index
      · rw [if_pos beyond]
        exact orderly_error forest _ (tree.commit_recordNode _)
      rw [if_neg beyond]
      have spelled := orderly_change forest found holds
        (.inserted id (Decidable.not_not.mp single) (Nat.le_of_not_lt beyond))
        (by simp) (by simpa using fits)
      rwa [refill, forM_one] at spelled
  | _ => exact orderly_error forest _ (tree.commit_recordNode _)

theorem orderly_setOptional (forest : tree.Forest) {parent : NodeId} (slot : Slot)
    {id : Option NodeId} (fits : ∀ new ∈ id, tree.Placeable (some parent) new) :
    Orderly tree ((tree.childrenIn parent slot).filter fun held => some held ≠ id) id.toList
      ((setOptional parent slot id).run tree) := by
  rw [setOptional]
  by_cases other : slot.arity ≠ .optional
  · rw [if_pos other]
    rcases run_node parent tree with ⟨held, _, reads⟩ | fails
    · rw [run_bind_ok reads]
      exact orderly_error forest _ rfl
    · rw [run_bind_error fails]
      exact orderly_error forest _ rfl
  rw [if_neg other]
  apply orderly_openSlot forest
  intro shape storage found holds
  have former_ids : tree.childrenIn parent slot = storage.ids := by
    rw [Tree.childrenIn, Tree.children_of_shape? found, Shape.children_storage? holds,
      Shape.map_snd_tagged]
  cases storage with
  | maybe former =>
      rw [former_ids]
      dsimp only
      by_cases same : former = id
      · subst same
        rw [if_pos rfl]
        cases former with
        | none => exact orderly_idle forest (tree.commit_recordNode _)
        | some held =>
            -- What stands in the slot is held, and cannot be given as new content.
            have child : (slot, held) ∈ tree.children parent := by
              rw [Tree.children_of_shape? found, Shape.mem_children_slot holds]
              exact List.mem_cons_self
            exact absurd rfl (Tree.unheld_iff.mp (fits held rfl).unheld parent _ child)
      · rw [if_neg same]
        have spelled := orderly_change forest found holds
          (.reset (Decidable.not_not.mp other) same) (by cases id <;> simp) (by simpa using fits)
        have leaving : ((Storage.maybe former).ids.filter fun held => some held ≠ id)
            = former.toList := by
          cases former <;> simp_all [Storage.ids]
        rw [leaving]
        rwa [refill, forM_toList, forM_toList] at spelled
  | _ => exact orderly_error forest _ (tree.commit_recordNode _)

theorem orderly_rewrite (forest : tree.Forest) {id : NodeId} {former shape : Shape}
    (found : tree.shape? id = some former) (before : former.children = [])
    (after : shape.children = []) :
    Orderly tree [] [] (ExceptT.run (m := StateM Tree) (ε := Fault) (do
      unless former = shape do
        modify fun tree => ((tree.recordNode id).setData id shape).bump) tree) := by
  by_cases same : former = shape
  · rw [if_pos same]
    exact orderly_idle forest rfl
  rw [if_neg same]
  have links : ∀ other, ((tree.recordNode id).setData id shape).bump.parent? other
      = tree.parent? other := tree.parent?_rewrite id shape
  have slots : ∀ other, ((tree.recordNode id).setData id shape).bump.children other
      = tree.children other := Tree.children_rewrite found before after
  have root : ((tree.recordNode id).setData id shape).bump.root = tree.root :=
    (tree.framed_recordNode id).root
  exact ⟨forest.alike slots links (root.symm ▸ forest.root), fun _ => List.forall_mem_nil _,
    fun _ => List.forall_mem_nil _, fun _ id _ _ => links id⟩

theorem orderly_setName (forest : tree.Forest) (id : NodeId) (value : String) :
    Orderly tree [] [] ((setName id value).run tree) := by
  rcases run_node id tree with ⟨held, found, reads⟩ | fails
  · rw [setName, run_bind_ok reads]
    have named := shape?_of_node? found
    cases shape : held.shape with
    | name text => exact orderly_rewrite forest (shape ▸ named) rfl rfl
    | «variable» text => exact orderly_rewrite forest (shape ▸ named) rfl rfl
    | _ => exact orderly_error forest _ rfl
  · rw [setName, run_bind_error fails]
    exact orderly_error forest _ rfl

theorem orderly_setLeaf (forest : tree.Forest) (id : NodeId) (shape : Shape) :
    Orderly tree [] [] ((setLeaf id shape).run tree) := by
  unfold setLeaf
  by_cases after : shape.children = []
  · rw [if_pos (List.isEmpty_iff.mpr after)]
    rcases run_node id tree with ⟨held, found, reads⟩ | fails
    · rw [run_bind_ok reads]
      dsimp only
      by_cases before : held.shape.children = []
      · rw [if_pos (List.isEmpty_iff.mpr before)]
        exact orderly_rewrite forest (shape?_of_node? found) before after
      · rw [if_neg (fun empty => before (List.isEmpty_iff.mp empty))]
        exact orderly_error forest _ rfl
    · rw [run_bind_error fails]
      exact orderly_error forest _ rfl
  · rw [if_neg (fun empty => after (List.isEmpty_iff.mp empty))]
    exact orderly_error forest _ rfl

theorem orderly_alloc (forest : tree.Forest) {shape : Shape}
    (nodup : (shape.children.map Prod.snd).Nodup)
    (fits : ∀ child ∈ shape.children, tree.Placeable none child.2) :
    Orderly tree [] (shape.children.map Prod.snd) ((discard (alloc shape)).run tree) := by
  have inside : ∀ child ∈ shape.children, tree.contains child.2 :=
    fun child member => (fits child member).inside
  have after := forest.added nodup fits
  have allocates : (discard (alloc shape)).run tree = (.ok (), tree.added shape) := by
    have spelled : discard (alloc shape) = alloc shape >>= fun _ => pure () := rfl
    rw [spelled, run_bind_ok (run_alloc_inside inside)]
    rfl
  rw [allocates]
  refine ⟨after, nofun, ?_, ?_⟩
  · rintro _ id member
    obtain ⟨child, among, rfl⟩ := List.mem_map.mp member
    right
    rw [after.unheld_iff_parent?, Tree.parent?_added_child inside nodup among]
    nofun
  · intro _ id _ apart
    exact Tree.parent?_added_other apart

end Edit

theorem Operation.orderly {tree : Tree} (forest : tree.Forest) {operation : Operation}
    (admissible : operation.Admissible tree) :
    Orderly tree (operation.displaced tree) operation.placed (operation.run.run tree) := by
  cases operation with
  | alloc shape => exact Edit.orderly_alloc forest admissible.1 admissible.2
  | construct construction => cases admissible
  | setName id value => exact Edit.orderly_setName forest id value
  | setLeaf id shape => exact Edit.orderly_setLeaf forest id shape
  | replace old new =>
      rcases Edit.run_node old tree with ⟨held, found, reads⟩ | fails
      · have parent : held.parent = tree.parent? old := by
          rw [Tree.parent?, found]
          rfl
        rw [run, Edit.replace, run_bind_ok reads, parent]
        exact Edit.orderly_replaceAt forest admissible
      · rw [run, Edit.replace, run_bind_error fails]
        exact Edit.orderly_error forest _ rfl
  | replaceAt link old new =>
      obtain ⟨rfl, fits⟩ := admissible
      exact Edit.orderly_replaceAt forest fits
  | remove id =>
      rcases Edit.run_node id tree with ⟨held, _, reads⟩ | fails
      · rw [run, Edit.remove, run_bind_ok reads]
        exact Edit.orderly_removeAt forest _ id
      · rw [run, Edit.remove, run_bind_error fails]
        exact Edit.orderly_error forest _ rfl
  | removeAt link id => exact Edit.orderly_removeAt forest link id
  | spliceAt link id replacement => exact Edit.orderly_spliceAt forest admissible.2.1 admissible.2.2
  | insert parent slot index id => exact Edit.orderly_insert forest slot index admissible
  | push parent slot id =>
      rcases Edit.run_node parent tree with ⟨held, _, reads⟩ | fails
      · rw [run, Edit.push, run_bind_ok reads, run_bind_ok (run_get tree)]
        exact Edit.orderly_insert forest slot _ admissible
      · rw [run, Edit.push, run_bind_error fails]
        exact Edit.orderly_error forest _ rfl
  | setOptional parent slot id => exact Edit.orderly_setOptional forest slot admissible

namespace Tree

def Admits : Tree → List Operation → Prop
  | _, [] => True
  | tree, operation :: rest => operation.Admissible tree ∧ (operation.after tree).Admits rest

theorem Forest.edited {tree : Tree} (forest : tree.Forest) {operations : List Operation}
    (admits : tree.Admits operations) : (tree.edited operations).Forest := by
  induction operations generalizing tree with
  | nil => exact forest
  | cons operation rest ih => exact ih (Operation.orderly forest admits.1).forest admits.2

/-- On a forest an admissible edit leaves a forest, whether it answers or is refused. One that answers
has freed what it displaced, settled what it placed, and moved no other back-reference. Admissible
edits between a checkpoint and its commit leave a forest, and a rollback does whatever came between. -/
theorem forest_of_admissible {tree : Tree} (forest : tree.Forest) :
    (∀ operation : Operation, operation.Admissible tree → (operation.after tree).Forest
      ∧ ((operation.run.run tree).1 = .ok () →
        (∀ id ∈ operation.displaced tree, (operation.after tree).Unheld id)
        ∧ (∀ id ∈ operation.placed,
          id = (operation.after tree).root ∨ ¬ (operation.after tree).Unheld id)
        ∧ ∀ id, id ∉ operation.displaced tree → id ∉ operation.placed →
          (operation.after tree).parent? id = tree.parent? id))
      ∧ (∀ operations, tree.checkpoint.Admits operations →
        (tree.checkpoint.edited operations).commit.Forest)
      ∧ ∀ operations, (tree.checkpoint.edited operations).rollback.Forest := by
  refine ⟨?_, ?_, ?_⟩
  · intro operation admissible
    have orderly := Operation.orderly forest admissible
    exact ⟨orderly.forest, fun answered =>
      ⟨orderly.freed answered, orderly.settled answered, orderly.still answered⟩⟩
  · intro operations admits
    have opened : tree.checkpoint.Forest := forest.of_commit rfl
    exact (opened.edited admits).of_commit rfl
  · intro operations
    rw [rollback_edited]
    exact forest.of_commit rfl

def spared : Tree where
  source := ""
  root := ⟨0⟩
  nodes := #[{ shape := .program [⟨1⟩] },
    { shape := .raw "a", parent := some ⟨⟨0⟩, .statement⟩ }, { shape := .raw "b" }]

theorem spared_children (parent : NodeId) :
    spared.children parent = if parent = ⟨0⟩ then [(.statement, ⟨1⟩)] else [] := by
  rcases parent with ⟨_ | _ | _ | _⟩ <;> rfl

theorem spared_parent? (id : NodeId) :
    spared.parent? id = if id = ⟨1⟩ then some ⟨⟨0⟩, .statement⟩ else none := by
  rcases id with ⟨_ | _ | _ | _⟩ <;> rfl

theorem spared_up {id above : NodeId} (up : spared.Up id above) : id = ⟨1⟩ ∧ above = ⟨0⟩ := by
  obtain ⟨slot, named⟩ := up
  rw [spared_parent?] at named
  split at named <;> simp_all

theorem spared_forest : spared.Forest := by
  have rises : ∀ {first last}, Relation.TransGen spared.Up first last → first = ⟨1⟩ ∧ last = ⟨0⟩ := by
    intro first last way
    induction way with
    | single up => exact spared_up up
    | tail _ up ih => simp_all [(spared_up up).1]
  apply forest_of_holds
  · intro parent
    by_cases here : parent = ⟨0⟩
    · subst here
      have root : spared.root = ⟨0⟩ := rfl
      constructor <;> simp [spared_children, spared_parent?, root]
    · constructor <;> simp [spared_children, here]
  · intro id link named
    rw [spared_parent?] at named
    split at named
    · next here =>
        cases named
        simp [spared_children, here]
    · cases named
  · intro id cycle
    obtain ⟨low, high⟩ := rises cycle
    cases low.symm.trans high

/-- A second statement is spliced in before the first, which is kept. -/
theorem forest_of_splice : spared.Forest
    ∧ (Operation.spliceAt (some ⟨⟨0⟩, .statement⟩) ⟨1⟩ [⟨2⟩, ⟨1⟩]).Admissible spared
    ∧ ((Operation.spliceAt (some ⟨⟨0⟩, .statement⟩) ⟨1⟩ [⟨2⟩, ⟨1⟩]).after spared).Forest
    ∧ ¬ ((Operation.spliceAt (some ⟨⟨0⟩, .statement⟩) ⟨1⟩ [⟨2⟩, ⟨1⟩]).after spared).Unheld ⟨2⟩ := by
  have admissible : (Operation.spliceAt (some ⟨⟨0⟩, .statement⟩) ⟨1⟩ [⟨2⟩, ⟨1⟩]).Admissible spared := by
    refine ⟨rfl, by decide, ?_⟩
    intro new member
    rcases List.mem_cons.mp member with rfl | kept
    · left
      refine ⟨rfl, ?_, by decide, ?_⟩
      · rw [unheld_iff]
        intro parent child held
        rw [spared_children] at held
        split at held <;> simp_all
      · rintro parent ⟨⟩ way
        rcases Relation.ReflTransGen.cases_head way with same | ⟨above, up, _⟩
        · cases same
        · cases (spared_up up).1
    · right
      simpa using kept
  obtain ⟨forest, answers⟩ := (forest_of_admissible spared_forest).1 _ admissible
  obtain ⟨_, settled, _⟩ := answers rfl
  refine ⟨spared_forest, admissible, forest, ?_⟩
  rcases settled ⟨2⟩ List.mem_cons_self with root | held
  · cases root
  · exact held

end Tree

end Codemod
