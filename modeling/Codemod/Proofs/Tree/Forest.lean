import Codemod.Proofs.Edit.Rollback
import Codemod.Proofs.Print.Validity
import Codemod.Proofs.Tree.Backed
import Mathlib.Logic.Relation

/-!
The arena as a forest: slots and back-references tell the same story, and following back-references
ends. A forest stays one when a node is added over nodes that no slot holds, and when a slot is
refilled with such nodes of which none stands above it.
-/

namespace Codemod

namespace Tree

variable {tree : Tree}

def Unheld (tree : Tree) (id : NodeId) : Prop :=
  ∀ place slot, tree.at? place ≠ some (slot, id)

def Up (tree : Tree) (id above : NodeId) : Prop :=
  ∃ slot, tree.parent? id = some ⟨above, slot⟩

/-- A node is held by at most one slot position, its back-reference is that position or nothing, the
root is not held, and no node is above itself. -/
structure Forest (tree : Tree) : Prop where
  once : ∀ {first second firstSlot secondSlot id}, tree.at? first = some (firstSlot, id) →
    tree.at? second = some (secondSlot, id) → first = second
  named : ∀ {place slot id}, tree.at? place = some (slot, id) →
    tree.parent? id = some ⟨place.parent, slot⟩
  unnamed : ∀ {id}, tree.Unheld id → tree.parent? id = none
  root : tree.Unheld tree.root
  acyclic : ∀ id, ¬ Relation.TransGen tree.Up id id

theorem Holds.keeps {parent : NodeId} (holds : tree.Holds parent) : tree.Keeps parent :=
  ⟨holds.named, holds.nodup⟩

theorem holds_of_keeps {parent : NodeId} (keeps : tree.Keeps parent)
    (rootless : ∀ child ∈ tree.children parent, child.2 ≠ tree.root) : tree.Holds parent :=
  ⟨keeps.named, rootless, keeps.nodup⟩

theorem unheld_iff {id : NodeId} :
    tree.Unheld id ↔ ∀ parent, ∀ child ∈ tree.children parent, child.2 ≠ id := by
  constructor
  · rintro unheld parent child held rfl
    obtain ⟨index, stands⟩ := List.getElem?_of_mem held
    exact unheld ⟨parent, index⟩ child.1 stands
  · intro apart place slot stands
    exact apart place.parent _ (List.mem_of_getElem? stands) rfl

theorem Forest.holds (forest : tree.Forest) (parent : NodeId) : tree.Holds parent := by
  constructor
  · intro child held
    obtain ⟨index, stands⟩ := List.getElem?_of_mem held
    have stood : tree.at? ⟨parent, index⟩ = some child := stands
    exact forest.named stood
  · exact unheld_iff.mp forest.root parent
  · exact nodup_of_places fun firstStands secondStands =>
      congrArg Place.index (forest.once firstStands secondStands)

theorem Forest.backed (forest : tree.Forest) : tree.Backed := by
  intro id link named
  by_contra absent
  have unheld : tree.Unheld id := by
    intro place slot stands
    have points := forest.named stands
    rw [named] at points
    cases points
    exact absent (List.mem_of_getElem? stands)
  rw [forest.unnamed unheld] at named
  cases named

theorem forest_of_holds (holds : ∀ parent, tree.Holds parent)
    (backed : tree.Backed)
    (acyclic : ∀ id, ¬ Relation.TransGen tree.Up id id) : tree.Forest where
  once := by
    rintro ⟨firstParent, first⟩ ⟨secondParent, second⟩ firstSlot secondSlot id firstStands secondStands
    have firstNames := (holds _).named _ (List.mem_of_getElem? firstStands)
    have secondNames := (holds _).named _ (List.mem_of_getElem? secondStands)
    have links := Option.some.inj (firstNames.symm.trans secondNames)
    cases links
    have inside : first < ((tree.children firstParent).map Prod.snd).length := by
      rw [List.length_map]
      exact (List.getElem?_eq_some_iff.mp firstStands).1
    have ids : ((tree.children firstParent).map Prod.snd)[first]?
        = ((tree.children firstParent).map Prod.snd)[second]? := by
      simp only [at?] at firstStands secondStands
      rw [List.getElem?_map, List.getElem?_map, firstStands, secondStands]
    rw [(List.getElem?_inj inside (holds firstParent).nodup).mp ids]
  named stands := (holds _).named _ (List.mem_of_getElem? stands)
  unnamed := by
    intro id unheld
    by_contra named
    obtain ⟨link, points⟩ := Option.ne_none_iff_exists'.mp named
    exact unheld_iff.mp unheld _ _ (backed id link points) rfl
  root := unheld_iff.mpr fun parent => (holds parent).rootless
  acyclic := acyclic

theorem Forest.unheld_iff_parent? (forest : tree.Forest) {id : NodeId} :
    tree.Unheld id ↔ tree.parent? id = none := by
  constructor
  · exact forest.unnamed
  · intro unnamed place slot stands
    rw [forest.named stands] at unnamed
    cases unnamed

theorem Forest.contains (forest : tree.Forest) {parent : NodeId} {child : Slot × NodeId}
    (held : child ∈ tree.children parent) : tree.contains child.2 :=
  contains_of_parent? ((forest.holds parent).named child held)

/-- A tree with the same slots and back-references, whatever its root, journal and revision. -/
theorem Forest.alike {other : Tree} (forest : tree.Forest)
    (slots : ∀ id, other.children id = tree.children id)
    (links : ∀ id, other.parent? id = tree.parent? id) (root : tree.Unheld other.root) :
    other.Forest := by
  have up : other.Up = tree.Up := by
    funext id above
    simp only [Up, links]
  apply forest_of_holds
  · intro parent
    constructor
    · intro child held
      rw [slots] at held
      rw [links]
      exact (forest.holds parent).named child held
    · intro child held
      rw [slots] at held
      exact unheld_iff.mp root parent child held
    · rw [slots]
      exact (forest.holds parent).nodup
  · intro id link named
    rw [links] at named
    rw [slots]
    exact forest.backed _ _ named
  · rw [up]
    exact forest.acyclic

theorem Forest.of_commit {other : Tree} (forest : tree.Forest) (same : other.commit = tree.commit) :
    other.Forest := by
  have nodes := nodes_of_commit same
  apply forest.alike
  · intro id
    rw [children, shape?, node?, nodes]
    rfl
  · intro id
    rw [parent?, node?, nodes]
    rfl
  · rw [root_of_commit same]
    exact forest.root

/-- Pointing nodes at a parent closes no cycle when none of them was above that parent. -/
theorem acyclic_of_placed {up after : NodeId → NodeId → Prop} (parent : NodeId)
    (placed : List NodeId) (acyclic : ∀ id, ¬ Relation.TransGen up id id)
    (step : ∀ {id above}, after id above → up id above ∨ id ∈ placed ∧ above = parent)
    (clear : ∀ id ∈ placed, ¬ Relation.ReflTransGen up parent id) (id : NodeId) :
    ¬ Relation.TransGen after id id := by
  -- A way up either avoids the new links, or it takes one and goes on above the parent from there.
  have ways : ∀ {first last}, Relation.TransGen after first last → Relation.TransGen up first last
      ∨ ∃ turn ∈ placed, Relation.ReflTransGen up first turn
        ∧ Relation.ReflTransGen up parent last := by
    intro first last way
    induction way with
    | single link =>
        rcases step link with old | ⟨new, rfl⟩
        · exact Or.inl (.single old)
        · exact Or.inr ⟨first, new, .refl, .refl⟩
    | tail _ link ih =>
        rcases ih with early | ⟨turn, new, toTurn, above⟩ <;> rcases step link with old | ⟨again, rfl⟩
        · exact Or.inl (early.tail old)
        · exact Or.inr ⟨_, again, early.to_reflTransGen, .refl⟩
        · exact Or.inr ⟨turn, new, toTurn, above.tail old⟩
        · exact absurd above (clear _ again)
  intro cycle
  rcases ways cycle with old | ⟨turn, new, toTurn, above⟩
  · exact acyclic id old
  · exact clear turn new (above.trans toTurn)

/-- A node that no slot holds, other than the root, and not above the place it is meant for. -/
structure Placeable (tree : Tree) (above : Option NodeId) (id : NodeId) : Prop where
  inside : tree.contains id
  unheld : tree.Unheld id
  rootless : id ≠ tree.root
  clear : ∀ parent ∈ above, ¬ Relation.ReflTransGen tree.Up parent id

theorem Forest.added (forest : tree.Forest) {shape : Shape}
    (nodup : (shape.children.map Prod.snd).Nodup)
    (fits : ∀ child ∈ shape.children, tree.Placeable none child.2) : (tree.added shape).Forest := by
  have inside : ∀ child ∈ shape.children, tree.contains child.2 :=
    fun child member => (fits child member).inside
  have apart : ∀ parent, ∀ child ∈ tree.children parent,
      child.2 ∉ shape.children.map Prod.snd := by
    intro parent child held member
    obtain ⟨other, among, same⟩ := List.mem_map.mp member
    exact unheld_iff.mp (fits other among).unheld parent child held same.symm
  apply forest_of_holds
  · intro parent
    by_cases new : parent = ⟨tree.size⟩
    · subst new
      apply holds_of_keeps (keeps_added_new inside nodup)
      rw [children_added_new, root_added]
      intro child member
      exact (fits child member).rootless
    · apply holds_of_keeps (keeps_added_old new (forest.holds parent).keeps (apart parent))
      rw [children_added_old tree shape new, root_added]
      exact (forest.holds parent).rootless
  · exact forest.backed.taking fun _ => id
  · -- Nothing is above the new node, so that no cycle passes through it.
    apply acyclic_of_placed ⟨tree.size⟩ (shape.children.map Prod.snd) forest.acyclic
    · rintro id above ⟨slot, named⟩
      by_cases member : id ∈ shape.children.map Prod.snd
      · obtain ⟨child, among, rfl⟩ := List.mem_map.mp member
        rw [parent?_added_child inside nodup among] at named
        cases named
        exact Or.inr ⟨member, rfl⟩
      · rw [parent?_added_other member] at named
        exact Or.inl ⟨slot, named⟩
    · intro id member way
      obtain ⟨child, among, rfl⟩ := List.mem_map.mp member
      rcases Relation.ReflTransGen.cases_head way with same | ⟨above, ⟨slot, named⟩, _⟩
      · exact ne_next_of_contains (inside child among) same.symm
      · exact tree.not_contains_next (contains_of_parent? named)

section

variable (forest : tree.Forest) {link : Link} {shape : Shape} {former filled : Storage}
variable {gone kept dropped added : List NodeId} (found : tree.shape? link.parent = some shape)
variable (holds : shape.storage? link.slot = some former)
variable (exchange : former.Exchange filled gone kept dropped added)
variable (fits : ∀ id ∈ added, tree.Placeable (some link.parent) id ∨ id ∈ gone)

include forest found holds exchange fits

theorem Forest.contains_added {id : NodeId} (enters : id ∈ added) : tree.contains id := by
  rcases fits id enters with placeable | leaves
  · exact placeable.inside
  · exact forest.contains (child_of_gone found holds exchange leaves)

/-- A node that enters was held by no slot, or by this one. -/
theorem Forest.only {child : Slot × NodeId} (enters : child.2 ∈ added) {parent : NodeId}
    (held : child ∈ tree.children parent) : parent = link.parent ∧ child.2 ∈ gone := by
  rcases fits child.2 enters with placeable | leaves
  · exact absurd rfl (unheld_iff.mp placeable.unheld parent child held)
  · have twice := (forest.holds parent).named child held
    rw [(forest.holds link.parent).named _ (child_of_gone found holds exchange leaves)] at twice
    exact ⟨congrArg Link.parent (Option.some.inj twice).symm, leaves⟩

theorem Forest.holds_refill (nodup : added.Nodup) (parent : NodeId) :
    (tree.refill link (shape.store link.slot filled) dropped added).Holds parent := by
  have inside : ∀ id ∈ added, tree.contains id := fun _ enters =>
    forest.contains_added found holds exchange fits enters
  have root := (tree.framed_refill link (shape.store link.slot filled) dropped added).root
  by_cases here : parent = link.parent
  · subst here
    apply holds_of_keeps
    · apply keeps_refill found holds exchange (forest.holds link.parent).keeps inside nodup
      intro id enters among
      obtain ⟨child, held, rfl⟩ := List.mem_map.mp among
      exact (forest.only found holds exchange fits enters held).2
    · rw [children_refill found, root]
      intro child held
      have slots := children_of_shape? found
      rw [Shape.mem_children_store holds exchange (slots ▸ (forest.holds link.parent).nodup), ← slots]
        at held
      rcases held with ⟨_, enters⟩ | ⟨member, _⟩
      · rcases fits child.2 enters with placeable | leaves
        · exact placeable.rootless
        · have left := child_of_gone found holds exchange leaves
          exact (forest.holds link.parent).rootless (link.slot, child.2) left
      · exact (forest.holds link.parent).rootless child member
  · apply holds_of_keeps
    · apply keeps_refill_other here (forest.holds parent).keeps inside
      intro child held enters
      exact here (forest.only found holds exchange fits enters held).1
    · rw [children_refill_other here, root]
      exact (forest.holds parent).rootless

theorem Forest.acyclic_refill (id : NodeId) : ¬ Relation.TransGen
    (tree.refill link (shape.store link.slot filled) dropped added).Up id id := by
  apply acyclic_of_placed link.parent added forest.acyclic
  · rintro id above ⟨slot, named⟩
    rcases parent?_refill_some named with ⟨enters, rfl⟩ | ⟨_, named, _⟩
    · exact Or.inr ⟨enters, rfl⟩
    · exact Or.inl ⟨slot, named⟩
  · intro id enters way
    rcases fits id enters with placeable | leaves
    · exact placeable.clear link.parent rfl way
    · have held := child_of_gone found holds exchange leaves
      have first : tree.Up id link.parent := ⟨link.slot, (forest.holds link.parent).named _ held⟩
      exact forest.acyclic id (.head' first way)

/-- Refilling a slot with nodes that may be placed, and with nodes that have just left it. -/
theorem Forest.refill (nodup : added.Nodup) :
    (tree.refill link (shape.store link.slot filled) dropped added).Forest := by
  apply forest_of_holds
  · exact forest.holds_refill found holds exchange fits nodup
  · exact forest.backed.refill found holds exchange (fun _ drops _ => drops) fun _ enters => enters
  · exact forest.acyclic_refill found holds exchange fits

end

end Tree

end Codemod
