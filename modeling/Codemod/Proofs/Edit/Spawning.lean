import Codemod.Proofs.Edit.Placement
import Codemod.Proofs.Edit.Rollback

/-!
How much an edit leaves to do. Calls stand above what they are made of, and creations above calls
where a rule makes calls of creations. An edit that adds nodes below a limit and raises no other node
leaves no more to do at the limit and above than there was.
-/

namespace Codemod

open Step

namespace Shape

/-- How far up a node stands. Where creations are made into calls, those with a list of arguments
stand above calls, and so do parentheses that may hold one. -/
def level (building : Bool) : Shape → Nat
  | .functionCall .. | .methodCall .. | .staticCall .. => 1
  | .new _ (some _) | .parenthesized _ => if building then 2 else 0
  | _ => 0

theorem level_le_two (building : Bool) (shape : Shape) : shape.level building ≤ 2 := by
  unfold level
  split <;> first | omega | (cases building <;> decide)

/-- A slot that stays empty where it was empty does not raise its holder. -/
theorem level_store {building : Bool} {shape : Shape} {slot : Slot} {former filled : Storage}
    (holds : shape.storage? slot = some former) (empty : former.ids = [] → filled.ids = []) :
    (shape.store slot filled).level building ≤ shape.level building := by
  unfold storage? at holds
  split at holds <;> cases holds <;> cases filled <;> try exact Nat.le_refl _
  -- Only the list of arguments of a creation makes a difference to its level.
  · next name list held => cases list <;> exact Nat.le_refl _
  · next name list held => cases list <;> cases held <;> simp_all [store, level, Storage.ids]

end Shape

namespace Storage

theorem filled_of_replace? {former filled : Storage} {old new : NodeId}
    (found : former.replace? old new = some filled) : former.ids ≠ [] := by
  cases former <;> simp only [replace?, Option.ite_none_right_eq_some] at found <;>
    obtain ⟨stands, _⟩ := found
  · exact List.cons_ne_nil _ _
  · rw [stands]
    exact List.cons_ne_nil _ _
  · exact List.ne_nil_of_mem stands

theorem filled_of_remove? {former filled : Storage} {id : NodeId}
    (found : former.remove? id = some filled) : former.ids ≠ [] := by
  cases former <;> simp only [remove?, Option.ite_none_right_eq_some, reduceCtorEq] at found <;>
    obtain ⟨stands, _⟩ := found
  · rw [stands]
    exact List.cons_ne_nil _ _
  · exact List.ne_nil_of_mem stands

end Storage

namespace Tree

variable {building : Bool} {limit : Nat} {before middle after : Tree}

def level (building : Bool) (tree : Tree) (id : NodeId) : Nat :=
  ((tree.shape? id).map (Shape.level building)).getD 0

theorem level_of_shape? {tree : Tree} {id : NodeId} {shape : Shape}
    (found : tree.shape? id = some shape) : tree.level building id = shape.level building := by
  rw [level, found]
  rfl

theorem level_le_two (building : Bool) (tree : Tree) (id : NodeId) :
    tree.level building id ≤ 2 := by
  unfold level
  cases tree.shape? id with
  | none => exact Nat.zero_le 2
  | some shape => exact shape.level_le_two building

/-- The root is in the arena, and so is what its back-reference names, if it has one. -/
structure Seated (tree : Tree) : Prop where
  rooted : tree.contains tree.root
  named : ∀ link, tree.parent? tree.root = some link → tree.contains link.parent

/-- New nodes stay below the limit, and no other node rises. -/
structure Spawns (building : Bool) (limit : Nat) (before after : Tree) : Prop where
  size : before.size ≤ after.size
  lower : ∀ id, before.contains id → after.level building id ≤ before.level building id
  fresh : ∀ id, ¬ before.contains id → after.contains id → after.level building id < limit
  seated : before.Seated → after.Seated

theorem spawns_refl (tree : Tree) : tree.Spawns building limit tree where
  size := Nat.le_refl _
  lower _ _ := Nat.le_refl _
  fresh _ absent present := absurd present absent
  seated := id

theorem Spawns.contains (spawns : before.Spawns building limit after) {id : NodeId}
    (inside : before.contains id) : after.contains id :=
  contains_iff.mpr (Nat.lt_of_lt_of_le (contains_iff.mp inside) spawns.size)

theorem Spawns.trans (first : before.Spawns building limit middle)
    (second : middle.Spawns building limit after) : before.Spawns building limit after where
  size := Nat.le_trans first.size second.size
  lower id inside := Nat.le_trans (second.lower id (first.contains inside)) (first.lower id inside)
  fresh id absent present := by
    by_cases early : middle.contains id
    · exact Nat.lt_of_le_of_lt (second.lower id early) (first.fresh id absent early)
    · exact second.fresh id early present
  seated := second.seated ∘ first.seated

theorem Spawns.mono {higher : Nat} (spawns : before.Spawns building limit after)
    (rises : limit ≤ higher) : before.Spawns building higher after where
  size := spawns.size
  lower := spawns.lower
  fresh id absent present := Nat.lt_of_lt_of_le (spawns.fresh id absent present) rises
  seated := spawns.seated

/-- Nothing is added, and nodes keep their back-references or lose them. -/
theorem spawns_of_framed (framed : before.Framed after)
    (lower : ∀ id, before.contains id → after.level building id ≤ before.level building id)
    (named : ∀ id link, after.parent? id = some link →
      before.contains link.parent ∨ before.parent? id = some link) :
    before.Spawns building limit after where
  size := Nat.le_of_eq framed.size.symm
  lower := lower
  fresh id absent present := by
    rw [framed.contains] at present
    exact absurd present absent
  seated seated := by
    constructor
    · rw [framed.root, framed.contains]
      exact seated.rooted
    · intro link names
      rw [framed.root] at names
      rw [framed.contains]
      rcases named _ link names with inside | early
      · exact inside
      · exact seated.named link early

theorem spawns_of_node? (framed : before.Framed after)
    (same : ∀ id, after.node? id = before.node? id) : before.Spawns building limit after := by
  apply spawns_of_framed framed
  · intro id _
    rw [level, shape?, same]
    exact Nat.le_refl _
  · intro id link names
    right
    rw [← names, parent?, parent?, same]

theorem spawns_bump (tree : Tree) : tree.Spawns building limit tree.bump :=
  spawns_of_node? tree.framed_bump fun _ => rfl

theorem spawns_recordNode (tree : Tree) (id : NodeId) :
    tree.Spawns building limit (tree.recordNode id) :=
  spawns_of_node? (tree.framed_recordNode id) (tree.node?_recordNode id)

theorem spawns_of_commit (same : after.commit = before.commit) :
    before.Spawns building limit after := by
  apply spawns_of_node? (framed_of_commit same)
  intro id
  rw [node?, nodes_of_commit same, node?]

theorem spawns_unlink (tree : Tree) (id : NodeId) (expected : Option Link) :
    tree.Spawns building limit (tree.unlink id expected) := by
  apply spawns_of_framed (tree.framed_unlink id expected)
  · intro other _
    rw [level, shape?_unlink]
    exact Nat.le_refl _
  · intro other link names
    right
    rw [parent?, node?_unlink] at names
    obtain ⟨node, found, named⟩ := Option.bind_eq_some_iff.mp names
    obtain ⟨former, held, rfl⟩ := Option.map_eq_some_iff.mp found
    dsimp only at named
    split at named
    · cases named
    · rw [parent?, held]
      exact named

theorem spawns_refill {tree : Tree} {link : Link} {shape filled : Shape}
    (found : tree.shape? link.parent = some shape)
    (lower : filled.level building ≤ shape.level building) (dropped added : List NodeId) :
    tree.Spawns building limit (tree.refill link filled dropped added) := by
  apply spawns_of_framed (tree.framed_refill link filled dropped added)
  · intro id _
    rw [level, shape?_refill]
    split
    · next here =>
        subst here
        rw [level, found]
        exact lower
    · exact Nat.le_refl _
  · intro id target names
    rw [parent?, node?_refill] at names
    obtain ⟨node, present, named⟩ := Option.bind_eq_some_iff.mp names
    obtain ⟨former, held, rfl⟩ := Option.map_eq_some_iff.mp present
    dsimp only at named
    split at named
    · cases named
      exact Or.inl (contains_of_shape? found)
    · split at named
      · cases named
      · right
        rw [parent?, held]
        exact named

theorem spawns_setData {tree : Tree} {id : NodeId} {shape data : Shape}
    (found : tree.shape? id = some shape) (lower : data.level building ≤ shape.level building) :
    tree.Spawns building limit (tree.setData id data) := by
  apply spawns_of_framed (tree.framed_setData id data)
  · intro other _
    rw [level, shape?, node?_setData, Option.map_map]
    by_cases here : other = id
    · subst here
      rw [level_of_shape? found]
      obtain ⟨node, held, _⟩ := Option.map_eq_some_iff.mp found
      rw [held]
      simpa using lower
    · rw [level, shape?]
      cases tree.node? other <;> simp [here]
  · intro other link names
    right
    rw [parent?, node?_setData] at names
    rw [← names, parent?]
    cases tree.node? other <;> rfl

theorem spawns_setRoot {tree : Tree} {root : NodeId} (inside : tree.contains root) :
    tree.Spawns building limit (tree.setRoot root) where
  size := Nat.le_of_eq (tree.framed_setParent root none).size.symm
  lower id _ := by
    rw [level, shape?_setRoot]
    exact Nat.le_refl _
  fresh id absent present := by
    have same := (tree.framed_setParent root none).contains id
    exact absurd (same ▸ present : tree.contains id) absent
  seated _ := by
    constructor
    · have same := (tree.framed_setParent root none).contains root
      exact same.trans inside
    · intro link names
      have loose := tree.parent?_setRoot root root
      rw [if_pos rfl] at loose
      cases loose.symm.trans names

theorem spawns_adopted {tree : Tree} {shape : Shape} (low : shape.level building < limit)
    (children : List (Slot × NodeId)) :
    tree.Spawns building limit ((tree.append { shape }).adopt ⟨tree.size⟩ children) := by
  have size : ((tree.append { shape }).adopt ⟨tree.size⟩ children).size = tree.size + 1 := by
    rw [(framed_adopt _ _ _).size, append, Tree.size, Array.size_push, Tree.size]
  have root : ((tree.append { shape }).adopt ⟨tree.size⟩ children).root = tree.root :=
    (framed_adopt _ _ _).root
  constructor
  · omega
  · intro id inside
    rw [level, shape?_taking, if_neg (ne_next_of_contains inside)]
    exact Nat.le_refl _
  · intro id absent present
    have new : id = ⟨tree.size⟩ := by
      rw [contains_iff] at absent present
      exact NodeId.index_inj.mp (show id.index = tree.size by omega)
    rw [level, shape?_taking, if_pos new]
    exact low
  · intro seated
    have grows : ∀ {id}, tree.contains id →
        ((tree.append { shape }).adopt ⟨tree.size⟩ children).contains id := by
      intro id inside
      rw [contains_iff] at inside ⊢
      omega
    constructor
    · rw [root]
      exact grows seated.rooted
    · intro link names
      rw [root] at names
      rcases parent?_adopt_some names with early | ⟨new, _⟩
      · apply grows
        apply seated.named link
        rw [parent?, node?_append] at early
        split at early
        · cases early
        · exact early
      · rw [new, contains_iff]
        exact Nat.lt_of_lt_of_eq (Nat.lt_succ_self _) size.symm

/-- Part of an attempt: what was done can still be taken back, and it leaves no more to do at the limit
and above. -/
structure Ventured (building : Bool) (limit : Nat) (before after : Tree) : Prop where
  spawns : before.Spawns building limit after
  back : before.SameRollback after

theorem ventured_ordered (building : Bool) (limit : Nat) : Ordered (Ventured building limit) where
  refl tree := ⟨spawns_refl tree, sameRollback_respected.refl tree⟩
  trans first second :=
    ⟨first.spawns.trans second.spawns, sameRollback_trans first.back second.back⟩

end Tree

namespace Edit

variable {building : Bool} {limit : Nat}

theorem alloc_ventures {shape : Shape} (low : shape.level building < limit) :
    (alloc shape).Along (Tree.Ventured building limit) := by
  intro tree
  refine ⟨?_, Tree.sameRollback_respected.alloc shape tree⟩
  rcases run_alloc shape tree with adds | ⟨done, size, index, stops⟩
  · rw [adds]
    exact Tree.spawns_adopted low _
  · rw [stops]
    exact Tree.spawns_adopted low _

theorem openSlot_refuses {tree : Tree} {link : Link} {shape : Shape}
    (found : tree.shape? link.parent = some shape) (lacks : shape.storage? link.slot = none) :
    (openSlot link).run tree
      = (.error (.rejected (.noSuchSlot shape.kind link.slot)), tree.recordNode link.parent) := by
  obtain ⟨node, held, rfl⟩ := Option.map_eq_some_iff.mp found
  rw [openSlot, run_bind_ok (run_node_some held), run_bind_ok (run_modify ..), lacks]
  rfl

/-- An edit that opens a slot goes on from there or ends at once. -/
theorem spawns_openSlot {tree : Tree} (link : Link) (next : Shape × Storage → Edit Unit)
    (each : ∀ shape storage, tree.shape? link.parent = some shape →
      shape.storage? link.slot = some storage →
      tree.Spawns building limit ((next (shape, storage)).run (tree.recordNode link.parent)).2) :
    tree.Spawns building limit ((openSlot link >>= next).run tree).2 := by
  cases found : tree.shape? link.parent with
  | none =>
      have absent : tree.node? link.parent = none := Option.map_eq_none_iff.mp found
      rw [openSlot, run_bind_error (run_bind_error (run_node_none absent) _)]
      exact Tree.spawns_refl tree
  | some shape =>
      cases holds : shape.storage? link.slot with
      | some storage =>
          rw [run_bind_ok (run_openSlot found holds)]
          exact each shape storage found holds
      | none =>
          rw [run_bind_error (openSlot_refuses found holds)]
          exact Tree.spawns_recordNode tree link.parent

theorem spawns_refilled (limit : Nat) {tree : Tree} {link : Link} {shape filled : Shape}
    (found : tree.shape? link.parent = some shape)
    (lower : filled.level building ≤ shape.level building) (dropped added : List NodeId) :
    tree.Spawns building limit
      ((refill link filled dropped added).run (tree.recordNode link.parent)).2 := by
  rcases run_refill link filled dropped added tree with
    finishes | ⟨left, entered, size, index, _, stops⟩
  · rw [finishes]
    exact (Tree.spawns_refill found lower dropped added).trans (Tree.spawns_bump _)
  · rw [stops]
    exact Tree.spawns_refill found lower _ _

theorem replaceAt_ventures (link : Option Link) (old new : NodeId) :
    (replaceAt link old new).Along (Tree.Ventured building limit) := by
  intro tree
  refine ⟨?_, Tree.sameRollback_respected.course (course_replaceAt link old new tree)⟩
  unfold replaceAt
  by_cases same : old = new
  · rw [if_pos same]
    exact Tree.spawns_refl tree
  rw [if_neg same]
  cases link with
  | none =>
      dsimp only
      rw [run_bind_ok (run_get tree)]
      by_cases foreign : old ≠ tree.root
      · rw [if_pos foreign]
        exact Tree.spawns_refl tree
      rw [if_neg foreign]
      rcases run_node new tree with ⟨held, found, reads⟩ | fails
      · have reroots : tree.Spawns building limit (tree.setRoot new) :=
          Tree.spawns_setRoot (Tree.contains_of_node? found)
        rw [run_bind_ok reads, run_bind_ok (run_set ..)]
        rcases run_unlink old none (tree.setRoot new) with unlinks | ⟨_, stops⟩
        · rw [run_bind_ok unlinks]
          exact (reroots.trans (Tree.spawns_unlink _ old none)).trans (Tree.spawns_bump _)
        · rw [run_bind_error stops]
          exact reroots
      · rw [run_bind_error fails]
        exact Tree.spawns_refl tree
  | some link =>
      apply spawns_openSlot
      intro shape storage found holds
      dsimp only
      cases replaced : storage.replace? old new with
      | none => exact Tree.spawns_recordNode tree link.parent
      | some filled =>
          -- A slot that had the old node was not empty, so that the holder gets no higher by it.
          have stays : storage.ids = [] → filled.ids = [] :=
            fun empty => absurd empty (Storage.filled_of_replace? replaced)
          have lower : (shape.store link.slot filled).level building ≤ shape.level building :=
            Shape.level_store holds stays
          have refills := spawns_refilled limit found lower [old] [new]
          rwa [refill, forM_one, forM_one] at refills

/-- Where all the nodes it is given are in the arena, a replacement is made or refused. -/
theorem replaceAt_answers {tree : Tree} {link : Option Link} {old new : NodeId}
    (linked : ∀ place, link = some place → tree.contains place.parent)
    (leaving : tree.contains old) (entering : tree.contains new) (size index : Nat) :
    ((replaceAt link old new).run tree).1 ≠ .error (.missing size index) := by
  -- All three ids are in the arena, so whatever else goes wrong is a refusal.
  by_cases same : old = new
  · unfold replaceAt
    rw [if_pos same]
    rintro ⟨⟩
  cases link with
  | none =>
      unfold replaceAt
      rw [if_neg same]
      dsimp only
      rw [run_bind_ok (run_get tree)]
      by_cases foreign : old ≠ tree.root
      · rw [if_pos foreign]
        rintro ⟨⟩
      · obtain ⟨node, found⟩ := Tree.node?_of_contains entering
        have still : (tree.setRoot new).contains old :=
          ((tree.framed_setParent new none).contains old).trans leaving
        rw [if_neg foreign, run_bind_ok (run_node_some found), run_bind_ok (run_set ..),
          run_bind_ok (run_unlink_inside still none)]
        rintro ⟨⟩
  | some link =>
      obtain ⟨node, held⟩ := Tree.node?_of_contains (linked link rfl)
      have found := shape?_of_node? held
      cases holds : node.shape.storage? link.slot with
      | none =>
          rw [replaceAt, if_neg same]
          dsimp only
          rw [run_bind_error (openSlot_refuses found holds)]
          rintro ⟨⟩
      | some storage =>
          cases replaced : storage.replace? old new with
          | some filled =>
              rw [run_replaceAt found holds same replaced leaving entering]
              rintro ⟨⟩
          | none =>
              rw [replaceAt, if_neg same]
              dsimp only
              rw [run_bind_ok (run_openSlot found holds)]
              dsimp only
              rw [replaced]
              rintro ⟨⟩

theorem removeAt_ventures (link : Option Link) (id : NodeId) :
    (removeAt link id).Along (Tree.Ventured building limit) := by
  intro tree
  refine ⟨?_, Tree.sameRollback_respected.course (course_removeAt link id tree)⟩
  unfold removeAt
  cases link with
  | none => exact Tree.spawns_refl tree
  | some link =>
      dsimp only
      by_cases required : link.slot.arity = .required
      · rw [if_pos required]
        exact Tree.spawns_refl tree
      rw [if_neg required]
      apply spawns_openSlot
      intro shape storage found holds
      dsimp only
      cases removed : storage.remove? id with
      | none => exact Tree.spawns_recordNode tree link.parent
      | some filled =>
          have stays : storage.ids = [] → filled.ids = [] :=
            fun empty => absurd empty (Storage.filled_of_remove? removed)
          have lower : (shape.store link.slot filled).level building ≤ shape.level building :=
            Shape.level_store holds stays
          have refills := spawns_refilled limit found lower [id] []
          rwa [refill, forM_one] at refills

theorem spawns_rewrite {tree : Tree} {id : NodeId} {former data : Shape}
    (found : tree.shape? id = some former) (lower : data.level building ≤ former.level building) :
    tree.Spawns building limit (ExceptT.run (m := StateM Tree) (ε := Fault) (do
      unless former = data do
        modify fun tree => ((tree.recordNode id).setData id data).bump) tree).2 := by
  by_cases same : former = data
  · rw [if_pos same]
    exact Tree.spawns_refl tree
  · rw [if_neg same]
    have noted : (tree.recordNode id).shape? id = some former := by
      rw [Tree.shape?, Tree.node?_recordNode]
      exact found
    have opened : tree.Spawns building limit (tree.recordNode id) := tree.spawns_recordNode id
    exact (opened.trans (Tree.spawns_setData noted lower)).trans (Tree.spawns_bump _)

theorem setName_ventures (id : NodeId) (value : String) :
    (setName id value).Along (Tree.Ventured building limit) := by
  intro tree
  refine ⟨?_, Tree.sameRollback_respected.course (course_setName id value tree)⟩
  rcases run_node id tree with ⟨held, found, reads⟩ | fails
  · rw [setName, run_bind_ok reads]
    have named := shape?_of_node? found
    cases shape : held.shape with
    | name text => exact spawns_rewrite (shape ▸ named) (Nat.le_refl _)
    | «variable» text => exact spawns_rewrite (shape ▸ named) (Nat.le_refl _)
    | _ => exact Tree.spawns_refl tree
  · rw [setName, run_bind_error fails]
    exact Tree.spawns_refl tree

end Edit

end Codemod
