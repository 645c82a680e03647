import Codemod.Tree.Print

/-!
When a tree is fit to be printed. The scan that comes before printing succeeds exactly on trees in
which every node that can be reached is held by one slot position only, the one its back-reference
names. The scan is followed with the list of nodes it is done with; that list and the stack never
hold a node twice, so the size of the arena is steps enough.
-/

namespace Codemod

/-- A slot position: one of the children of a node, counted from the front. -/
structure Place where
  parent : NodeId
  index : Nat

namespace Tree

def at? (tree : Tree) (place : Place) : Option (Slot × NodeId) :=
  (tree.children place.parent)[place.index]?

inductive Below (tree : Tree) (top : NodeId) : NodeId → Prop where
  | self : Below tree top top
  | child {parent id : NodeId} {slot : Slot} (above : Below tree top parent)
      (held : (slot, id) ∈ tree.children parent) : Below tree top id

abbrev Reaches (tree : Tree) (id : NodeId) : Prop :=
  tree.Below tree.root id

/-- The root is held by no slot position that can be reached, every other node that can be reached
by exactly one, which is the one its back-reference names. -/
structure HeldOnce (tree : Tree) : Prop where
  root : ∀ {place slot}, tree.Reaches place.parent → tree.at? place ≠ some (slot, tree.root)
  once : ∀ {id}, tree.Reaches id → id ≠ tree.root → ∃ place slot, tree.Reaches place.parent
    ∧ tree.at? place = some (slot, id) ∧ tree.parent? id = some ⟨place.parent, slot⟩
    ∧ ∀ {other otherSlot}, tree.Reaches other.parent → tree.at? other = some (otherSlot, id) →
      other = place

/-- The same at one parent: its children point back at it, are no roots, and differ. -/
structure Holds (tree : Tree) (parent : NodeId) : Prop where
  named : ∀ child ∈ tree.children parent, tree.parent? child.2 = some ⟨parent, child.1⟩
  rootless : ∀ child ∈ tree.children parent, child.2 ≠ tree.root
  nodup : ((tree.children parent).map Prod.snd).Nodup

theorem children_of_node? {tree : Tree} {id : NodeId} {node : Node} (found : tree.node? id = some node) :
    tree.children id = node.shape.children := by
  simp [children, shape?, found]

theorem contains_of_parent? {tree : Tree} {id : NodeId} {link : Link}
    (named : tree.parent? id = some link) : tree.contains id := by
  obtain ⟨node, found, _⟩ := Option.bind_eq_some_iff.mp named
  obtain ⟨inside, _⟩ := Array.getElem?_eq_some_iff.mp found
  exact decide_eq_true inside

/-- The children of a node differ if none of them has two places. -/
theorem nodup_of_places {tree : Tree} {parent : NodeId}
    (once : ∀ {first second firstSlot secondSlot id}, tree.at? ⟨parent, first⟩ = some (firstSlot, id) →
      tree.at? ⟨parent, second⟩ = some (secondSlot, id) → first = second) :
    ((tree.children parent).map Prod.snd).Nodup := by
  apply List.pairwise_iff_getElem.mpr
  intro first second firstInside secondInside before same
  rw [List.length_map] at firstInside secondInside
  rw [List.getElem_map, List.getElem_map] at same
  have firstStands : tree.at? ⟨parent, first⟩
      = some ((tree.children parent)[first].1, (tree.children parent)[second].2) := by
    rw [← same]
    exact List.getElem?_eq_getElem firstInside
  have secondStands : tree.at? ⟨parent, second⟩ = some (tree.children parent)[second] :=
    List.getElem?_eq_getElem secondInside
  exact Nat.ne_of_lt before (once firstStands secondStands)

theorem HeldOnce.holds {tree : Tree} (held : tree.HeldOnce) {parent : NodeId}
    (reached : tree.Reaches parent) : tree.Holds parent := by
  have positions : ∀ index slot id, tree.at? ⟨parent, index⟩ = some (slot, id) →
      id ≠ tree.root ∧ tree.parent? id = some ⟨parent, slot⟩
        ∧ ∀ other otherSlot, tree.at? ⟨parent, other⟩ = some (otherSlot, id) → other = index := by
    intro index slot id stands
    have distinct : id ≠ tree.root := by
      rintro rfl
      exact held.root reached stands
    have below : tree.Reaches id := .child reached (List.mem_of_getElem? stands)
    obtain ⟨place, named, _, holds, back, only⟩ := held.once below distinct
    have same := only reached stands
    subst same
    have slots : some (slot, id) = some (named, id) := stands.symm.trans holds
    cases slots
    refine ⟨distinct, back, ?_⟩
    intro other otherSlot also
    have again := only reached also
    exact congrArg Place.index again
  have found : ∀ child ∈ tree.children parent,
      ∃ index, tree.at? ⟨parent, index⟩ = some child := by
    intro child member
    obtain ⟨index, stands⟩ := List.getElem?_of_mem member
    exact ⟨index, stands⟩
  constructor
  · intro child member
    obtain ⟨index, stands⟩ := found child member
    exact (positions index child.1 child.2 stands).2.1
  · intro child member
    obtain ⟨index, stands⟩ := found child member
    exact (positions index child.1 child.2 stands).1
  · exact nodup_of_places fun firstStands secondStands =>
      (positions _ _ _ secondStands).2.2 _ _ firstStands

theorem heldOnce_of_holds {tree : Tree}
    (holds : ∀ parent, tree.Reaches parent → tree.Holds parent) : tree.HeldOnce := by
  constructor
  · intro place slot reached stands
    exact (holds _ reached).rootless _ (List.mem_of_getElem? stands) rfl
  · intro id reached distinct
    cases reached with
    | self => exact absurd rfl distinct
    | @child parent _ slot above held =>
        obtain ⟨index, stands⟩ := List.getElem?_of_mem held
        have named := (holds parent above).named _ held
        refine ⟨⟨parent, index⟩, slot, above, stands, named, ?_⟩
        rintro ⟨otherParent, other⟩ otherSlot otherAbove also
        have again := (holds otherParent otherAbove).named _ (List.mem_of_getElem? also)
        have links := Option.some.inj (again.symm.trans named)
        cases links
        have inside : other < ((tree.children parent).map Prod.snd).length := by
          rw [List.length_map]
          exact (List.getElem?_eq_some_iff.mp also).1
        have stood : tree.at? ⟨parent, index⟩ = some (slot, id) := stands
        have ids : ((tree.children parent).map Prod.snd)[other]?
            = ((tree.children parent).map Prod.snd)[index]? := by
          simp only [at?] at also stood
          rw [List.getElem?_map, List.getElem?_map, also, stood]
        rw [(List.getElem?_inj inside (holds parent above).nodup).mp ids]

theorem enqueue_ok {tree : Tree} {parent : NodeId} {children : List (Slot × NodeId)}
    {stack after : List NodeId} {seen marked : NodeSet}
    (ran : tree.enqueue parent children stack seen = .ok (after, marked)) :
    (∀ child ∈ children, tree.parent? child.2 = some ⟨parent, child.1⟩)
      ∧ (∀ child ∈ children, seen.contains child.2 = false)
      ∧ (children.map Prod.snd).Nodup
      ∧ after = (children.map Prod.snd).reverse ++ stack
      ∧ ∀ id, marked.contains id ↔ id ∈ children.map Prod.snd ∨ seen.contains id := by
  induction children generalizing stack seen with
  | nil =>
      cases ran
      simp
  | cons child rest ih =>
      obtain ⟨slot, id⟩ := child
      rw [enqueue] at ran
      split at ran
      · cases ran
      · next agrees =>
          split at ran
          · cases ran
          · next fresh =>
              obtain ⟨named, unseen, nodup, stacked, marks⟩ := ih ran
              simp only [Bool.or_eq_true, Bool.not_eq_true', decide_eq_true_eq, not_or,
                Decidable.not_not] at agrees
              have fresh : seen.contains id = false := Bool.eq_false_iff.mpr fresh
              -- The rest was checked against the set with this child, so this child is none of it.
              have apart : ∀ child ∈ rest, child.2 ≠ id ∧ seen.contains child.2 = false := by
                intro child member
                have marked := unseen child member
                rw [NodeSet.contains_insert, Bool.or_eq_false_iff, decide_eq_false_iff_not] at marked
                exact marked
              refine ⟨?_, ?_, ?_, ?_, ?_⟩
              · exact List.forall_mem_cons.mpr ⟨agrees.2, named⟩
              · exact List.forall_mem_cons.mpr ⟨fresh, fun child member => (apart child member).2⟩
              · refine List.nodup_cons.mpr ⟨?_, nodup⟩
                intro member
                obtain ⟨child, held, same⟩ := List.mem_map.mp member
                exact (apart child held).1 same
              · rw [stacked, List.map_cons, List.reverse_cons, List.append_assoc]
                rfl
              · intro other
                rw [marks other, NodeSet.contains_insert, List.map_cons, List.mem_cons]
                simp only [Bool.or_eq_true, decide_eq_true_eq]
                constructor
                · rintro (held | same | seen)
                  · exact Or.inl (Or.inr held)
                  · exact Or.inl (Or.inl same)
                  · exact Or.inr seen
                · rintro ((same | held) | seen)
                  · exact Or.inr (Or.inl same)
                  · exact Or.inl held
                  · exact Or.inr (Or.inr seen)

theorem enqueue_of_fresh {tree : Tree} {parent : NodeId} {children : List (Slot × NodeId)}
    {stack : List NodeId} {seen : NodeSet}
    (named : ∀ child ∈ children, tree.parent? child.2 = some ⟨parent, child.1⟩)
    (unseen : ∀ child ∈ children, seen.contains child.2 = false)
    (nodup : (children.map Prod.snd).Nodup) :
    ∃ result, tree.enqueue parent children stack seen = .ok result := by
  induction children generalizing stack seen with
  | nil => exact ⟨_, rfl⟩
  | cons child rest ih =>
      obtain ⟨slot, id⟩ := child
      obtain ⟨named, namedRest⟩ := List.forall_mem_cons.mp named
      obtain ⟨unseen, unseenRest⟩ := List.forall_mem_cons.mp unseen
      obtain ⟨apart, nodupRest⟩ := List.nodup_cons.mp nodup
      have inside := contains_of_parent? named
      have unmarked : ∀ child ∈ rest, (seen.insert id).contains child.2 = false := by
        intro child member
        have other : child.2 ≠ id := by
          intro same
          exact apart (List.mem_map.mpr ⟨child, member, same⟩)
        simp [other, unseenRest child member]
      obtain ⟨result, ran⟩ : ∃ result,
          tree.enqueue parent rest (id :: stack) (seen.insert id) = .ok result :=
        ih namedRest unmarked nodupRest
      refine ⟨result, ?_⟩
      rw [enqueue, if_neg (by simp [inside, named]), if_neg (by simp [unseen])]
      exact ran

def Refusal : PrintError → Prop
  | .dangling _ _ | .shared _ => True
  | _ => False

theorem enqueue_error {tree : Tree} {parent : NodeId} {children : List (Slot × NodeId)}
    {stack : List NodeId} {seen : NodeSet} {error : PrintError}
    (ran : tree.enqueue parent children stack seen = .error error) : Refusal error := by
  induction children generalizing stack seen with
  | nil => cases ran
  | cons child rest ih =>
      obtain ⟨slot, id⟩ := child
      rw [enqueue] at ran
      split at ran
      · cases ran
        trivial
      · split at ran
        · cases ran
          trivial
        · exact ih ran

/-- The scan is done with some nodes, and the stack holds those that are seen and not yet done. -/
structure Scan (tree : Tree) (done stack : List NodeId) (seen : NodeSet) : Prop where
  seen : ∀ id, seen.contains id ↔ id ∈ done ++ stack
  nodup : (done ++ stack).Nodup
  inside : ∀ id ∈ done ++ stack, tree.contains id
  reached : ∀ id ∈ done ++ stack, tree.Reaches id
  root : tree.root ∈ done ++ stack
  holds : ∀ parent ∈ done, tree.Holds parent
  closed : ∀ parent ∈ done, ∀ child ∈ tree.children parent, child.2 ∈ done ++ stack
  held : ∀ id ∈ done ++ stack, id ≠ tree.root →
    ∃ parent ∈ done, ∃ slot, (slot, id) ∈ tree.children parent

theorem scan_start {tree : Tree} (rooted : tree.contains tree.root) :
    tree.Scan [] [tree.root] (.just tree.root) where
  seen id := by simp [NodeSet.just]
  nodup := by simp
  inside id member := by
    cases List.mem_singleton.mp member
    exact rooted
  reached id member := by
    cases List.mem_singleton.mp member
    exact .self
  root := List.mem_cons_self
  holds parent member := by cases member
  closed parent member := by cases member
  held id member distinct := absurd (List.mem_singleton.mp member) distinct

theorem scan_step {tree : Tree} {done stack after : List NodeId} {id : NodeId}
    {seen marked : NodeSet} (scan : tree.Scan done (id :: stack) seen)
    (ran : tree.enqueue id (tree.children id) stack seen = .ok (after, marked)) :
    tree.Scan (id :: done) after marked := by
  obtain ⟨named, unseen, nodup, rfl, marks⟩ := enqueue_ok ran
  have fresh : ∀ child ∈ tree.children id, child.2 ∉ done ++ id :: stack := by
    intro child member known
    have seen := (scan.seen child.2).mpr known
    rw [unseen child member] at seen
    cases seen
  -- Nodes only move: from the stack to those done, and the children onto the stack.
  have moved : List.Perm ((id :: done) ++ (((tree.children id).map Prod.snd).reverse ++ stack))
      ((tree.children id).map Prod.snd ++ (done ++ id :: stack)) := by
    apply List.perm_iff_count.mpr
    intro other
    simp only [List.count_append, List.count_cons, List.count_reverse]
    omega
  have known : ∀ other, other ∈ (id :: done) ++ (((tree.children id).map Prod.snd).reverse ++ stack) ↔
      (∃ child ∈ tree.children id, child.2 = other) ∨ other ∈ done ++ id :: stack := by
    intro other
    rw [moved.mem_iff, List.mem_append, List.mem_map]
  have here : id ∈ done ++ id :: stack := by simp
  constructor
  case seen =>
    intro other
    rw [marks other, scan.seen other, known other, List.mem_map]
  case nodup =>
    rw [moved.nodup_iff, List.nodup_append]
    refine ⟨nodup, scan.nodup, ?_⟩
    intro other held known again same
    obtain ⟨child, member, rfl⟩ := List.mem_map.mp held
    exact fresh child member (same ▸ again)
  case inside =>
    intro other member
    rcases (known other).mp member with ⟨child, held, rfl⟩ | old
    · exact contains_of_parent? (named child held)
    · exact scan.inside other old
  case reached =>
    intro other member
    rcases (known other).mp member with ⟨child, held, rfl⟩ | old
    · exact .child (scan.reached id here) held
    · exact scan.reached other old
  case root => exact (known tree.root).mpr (Or.inr scan.root)
  case holds =>
    intro parent member
    rcases List.mem_cons.mp member with rfl | old
    · refine ⟨named, ?_, nodup⟩
      intro child held same
      apply fresh child held
      rw [same]
      exact scan.root
    · exact scan.holds parent old
  case closed =>
    intro parent member child held
    rcases List.mem_cons.mp member with rfl | old
    · exact (known child.2).mpr (Or.inl ⟨child, held, rfl⟩)
    · exact (known child.2).mpr (Or.inr (scan.closed parent old child held))
  case held =>
    intro other member distinct
    rcases (known other).mp member with ⟨child, held, rfl⟩ | old
    · exact ⟨id, List.mem_cons_self, child.1, held⟩
    · obtain ⟨parent, finished, slot, held⟩ := scan.held other old distinct
      exact ⟨parent, List.mem_cons_of_mem _ finished, slot, held⟩

theorem Scan.heldOnce {tree : Tree} {done : List NodeId} {seen : NodeSet}
    (scan : tree.Scan done [] seen) : tree.HeldOnce := by
  -- With an empty stack, the root and with every node its children are done with.
  have finished : ∀ id, tree.Reaches id → id ∈ done := by
    intro id reached
    induction reached with
    | self => exact List.append_nil done ▸ scan.root
    | child _ held ih => exact List.append_nil done ▸ scan.closed _ ih _ held
  exact heldOnce_of_holds fun parent reached => scan.holds parent (finished parent reached)

theorem Scan.enqueues {tree : Tree} {done stack : List NodeId} {id : NodeId} {seen : NodeSet}
    (scan : tree.Scan done (id :: stack) seen) (held : tree.HeldOnce) :
    ∃ result, tree.enqueue id (tree.children id) stack seen = .ok result := by
  -- A child seen before would be held by the node that put it on the stack as well.
  have reached : tree.Reaches id := scan.reached id (by simp)
  have holds := held.holds reached
  refine enqueue_of_fresh holds.named ?_ holds.nodup
  intro child member
  apply Bool.eq_false_iff.mpr
  intro known
  obtain ⟨parent, old, slot, heldBefore⟩ :=
    scan.held child.2 ((scan.seen child.2).mp known) (holds.rootless child member)
  have before := (scan.holds parent old).named _ heldBefore
  have links := Option.some.inj (before.symm.trans (holds.named child member))
  cases links
  exact (List.nodup_append.mp scan.nodup).2.2 id old id List.mem_cons_self rfl

theorem length_le_size {tree : Tree} {ids : List NodeId} (nodup : ids.Nodup)
    (inside : ∀ id ∈ ids, tree.contains id) : ids.length ≤ tree.size := by
  have subset : ids ⊆ (List.range tree.size).map NodeId.mk := by
    intro id member
    have bound : id.index < tree.size := of_decide_eq_true (inside id member)
    exact List.mem_map.mpr ⟨id.index, List.mem_range.mpr bound, rfl⟩
  have bounded := nodup.length_le_of_subset subset
  simpa using bounded

theorem Scan.validateFrom {tree : Tree} {done stack : List NodeId} {seen : NodeSet} {steps : Nat}
    (scan : tree.Scan done stack seen) (enough : tree.size ≤ done.length + steps) :
    (tree.validateFrom steps stack seen = .ok () ∧ tree.HeldOnce)
      ∨ (¬ tree.HeldOnce ∧ ∃ error, Refusal error
        ∧ tree.validateFrom steps stack seen = .error error) := by
  induction steps generalizing done stack seen with
  | zero =>
      cases stack with
      | nil => exact Or.inl ⟨rfl, scan.heldOnce⟩
      | cons id stack =>
          have few := length_le_size scan.nodup scan.inside
          simp only [List.length_append, List.length_cons] at few
          omega
  | succ steps ih =>
      cases stack with
      | nil => exact Or.inl ⟨rfl, scan.heldOnce⟩
      | cons id stack =>
          rw [Tree.validateFrom]
          cases ran : tree.enqueue id (tree.children id) stack seen with
          | error error =>
              refine Or.inr ⟨?_, error, enqueue_error ran, rfl⟩
              intro held
              obtain ⟨result, again⟩ := scan.enqueues held
              rw [ran] at again
              cases again
          | ok result =>
              obtain ⟨after, marked⟩ := result
              have enough : tree.size ≤ (id :: done).length + steps := by
                rw [List.length_cons]
                omega
              exact ih (scan_step scan ran) enough

/-- The scan succeeds on trees that hold every node once, and refuses all others. -/
theorem validate_cases {tree : Tree} (rooted : tree.contains tree.root) :
    (tree.validate = .ok () ∧ tree.HeldOnce)
      ∨ (¬ tree.HeldOnce ∧ ∃ error, Refusal error ∧ tree.validate = .error error) :=
  (scan_start rooted).validateFrom (by simp)

theorem validate_ok_iff {tree : Tree} (rooted : tree.contains tree.root) :
    tree.validate = .ok () ↔ tree.HeldOnce := by
  rcases validate_cases rooted with ⟨valid, held⟩ | ⟨unheld, error, _, refused⟩
  · exact iff_of_true valid held
  · rw [refused]
    exact iff_of_false nofun unheld

end Tree

end Codemod
