import Codemod.Proofs.Edit.Placement

/-!
Back-references that are set are right: the slot that is named has the node. A node may be held by
several slots, and an edit may be addressed by any of them; what an edit takes out of a slot loses
its back-reference where that is the slot, so that no back-reference is left behind. Every edit
keeps this, however it ends (`Backed.after`).
-/

namespace Codemod.Tree

variable {tree : Tree}

/-- Every back-reference names a slot that has the node. -/
def Backed (tree : Tree) : Prop :=
  ∀ id link, tree.parent? id = some link → (link.slot, id) ∈ tree.children link.parent

/-- Slots stay as they are, and no back-reference is set. -/
theorem Backed.fewer {before after : Tree} (backed : before.Backed)
    (links : ∀ id link, after.parent? id = some link → before.parent? id = some link)
    (slots : ∀ id, after.children id = before.children id) : after.Backed := by
  intro id link named
  rw [slots]
  exact backed id link (links id link named)

theorem backed_of_commit {before after : Tree} (same : after.commit = before.commit)
    (backed : before.Backed) : after.Backed := by
  have nodes := nodes_of_commit same
  apply backed.fewer
  · intro id link named
    rwa [parent?, node?, nodes] at named
  · intro id
    rw [children, shape?, node?, nodes]
    rfl

theorem Backed.setRoot (backed : tree.Backed) (new : NodeId) : (tree.setRoot new).Backed := by
  refine backed.fewer ?_ (tree.children_setRoot new)
  intro id link named
  rw [parent?_setRoot] at named
  split at named
  · cases named
  · exact named

/-- A slot is refilled, also where the nodes that are not in the arena stop it part-way: all others
that leave the slot have lost their back-references by then. -/
theorem Backed.refill (backed : tree.Backed) {link : Link} {shape : Shape} {former filled : Storage}
    {gone kept dropped added : List NodeId} (found : tree.shape? link.parent = some shape)
    (holds : shape.storage? link.slot = some former)
    (exchange : former.Exchange filled gone kept dropped added) {left entered : List NodeId}
    (leaves : ∀ id ∈ dropped, tree.contains id → id ∈ left) (enters : ∀ id ∈ entered, id ∈ added) :
    (tree.refill link (shape.store link.slot filled) left entered).Backed := by
  have filled_child : ∀ {id}, (link.slot, id) ∈ (shape.store link.slot filled).children
      ↔ id ∈ added ∨ id ∈ kept := by
    intro id
    rw [Shape.mem_children_slot (Shape.storage?_store holds exchange.alike),
      exchange.enters.mem_iff, List.mem_append]
  intro id target named
  rcases parent?_refill_some named with ⟨entering, rfl⟩ | ⟨_, named, stays⟩
  · rw [children_refill found]
    exact filled_child.mpr (Or.inl (enters id entering))
  · have held := backed id target named
    by_cases here : target.parent = link.parent
    · rw [here, children_refill found]
      rw [here, children_of_shape? found] at held
      by_cases slot : target.slot = link.slot
      · -- It points at the very slot, so it has not left it, or it is back.
        have same : target = link := by
          cases target
          cases link
          cases here
          cases slot
          rfl
        rw [slot, Shape.mem_children_slot holds, exchange.leaves.mem_iff, List.mem_append] at held
        rw [slot]
        refine filled_child.mpr (held.imp_left fun went => ?_)
        by_contra absent
        have drops := (exchange.drops id).mpr ⟨went, absent⟩
        obtain ⟨_, present, _⟩ := node?_of_parent? named
        exact stays ⟨leaves id drops (contains_of_node? present), same⟩
      · exact (Shape.mem_children_other slot).mpr held
    · rw [children_refill_other here]
      exact held

/-- A new node takes its children, or some of them where one is not in the arena. -/
theorem Backed.taking (backed : tree.Backed) {shape : Shape} {taken : List (Slot × NodeId)}
    (among : ∀ child ∈ taken, child ∈ shape.children) :
    ((tree.append { shape }).adopt ⟨tree.size⟩ taken).Backed := by
  have slots : ∀ id, ((tree.append { shape }).adopt ⟨tree.size⟩ taken).children id
      = if id = ⟨tree.size⟩ then shape.children else tree.children id := by
    intro id
    rw [children, shape?_taking]
    by_cases new : id = ⟨tree.size⟩
    · rw [if_pos new, if_pos new]
    · rw [if_neg new, if_neg new]
      rfl
  intro id link named
  rw [slots]
  rcases parent?_adopt_some named with before | ⟨same, member⟩
  · rw [parent?, node?_append] at before
    split at before
    · cases before
    · have held := backed id link before
      obtain ⟨_, found, _⟩ := shape?_of_child held
      rw [if_neg (ne_next_of_contains (contains_of_shape? found))]
      exact held
  · rw [if_pos same]
    exact among _ member

theorem Backed.course (backed : tree.Backed) {result : Except Fault Unit × Tree}
    (ended : Edit.Course tree result) : result.2.Backed := by
  cases ended with
  | idle | refused | absent => exact backed
  | opened id => exact backed_of_commit (tree.commit_recordNode id) backed
  | @rewritten id former shape found before after =>
      apply backed.fewer
      · intro other link named
        rwa [parent?_bump, parent?_rewrite] at named
      · exact children_rewrite found before after
  | refilled found holds change =>
      obtain ⟨gone, kept, exchange⟩ := change.exchange
      exact backed.refill found holds exchange (fun _ drops _ => drops) fun _ enters => enters
  | @halted link shape former filled dropped added found holds change left entered _ _ stops =>
      obtain ⟨gone, kept, exchange⟩ := change.exchange
      refine backed.refill found holds exchange ?_ fun _ enters => List.mem_of_mem_take enters
      intro id drops inside
      rcases stops with ⟨other, member, absent⟩ | rfl
      · exact absurd (change.drops_one drops member ▸ inside) absent
      · rwa [List.take_length]
  | @rerooted new =>
      apply (backed.setRoot new).fewer
      · intro id link named
        rwa [parent?_bump, parent?_unlink_none] at named
      · intro id
        rw [children_bump, children_unlink]
  | @uprooted new => exact backed.setRoot new

theorem backed_ordered : Ordered fun before after => before.Backed → after.Backed :=
  ⟨fun _ => id, fun first second => second ∘ first⟩

theorem backed_alloc (shape : Shape) :
    (Edit.alloc shape).Along fun before after => before.Backed → after.Backed := by
  intro tree backed
  rcases Edit.run_alloc shape tree with finishes | ⟨done, size, index, stops⟩
  · rw [finishes]
    exact backed.taking fun _ => id
  · rw [stops]
    exact backed.taking fun _ => List.mem_of_mem_take

/-- Every edit keeps back-references right, whether it answers, is refused or stops part-way. -/
theorem Backed.after (backed : tree.Backed) (operation : Operation) :
    (operation.after tree).Backed := by
  rcases operation.course_or_allocates with courses | allocates
  · exact backed.course (courses tree)
  · exact allocates.along backed_ordered backed_alloc tree backed

/-- Where back-references are right, a node is attached as soon as it has one. -/
theorem Backed.isAttached_iff (backed : tree.Backed) (id : NodeId) :
    tree.isAttached id ↔ id = tree.root ∨ (tree.parent? id).isSome := by
  cases named : tree.parent? id with
  | none => simp [isAttached, named]
  | some link =>
      have held := backed id link named
      simp [isAttached, named, held]

end Codemod.Tree
