import Codemod.Proofs.Edit.Placement
import Codemod.Proofs.Print.Coverage

/-!
Subtrees in which every node is held once. Below such a node there are no cycles, a node has one
holder only, and what is below one child is not below another.
-/

namespace Codemod.Tree

variable {tree : Tree} {top : NodeId}

/-- The nodes below a node are held once, by the slot they point at, and the node itself by none of
them. -/
structure Tidy (tree : Tree) (top : NodeId) : Prop where
  keeps : ∀ {parent}, tree.Below top parent → tree.Keeps parent
  topless : ∀ {parent child}, tree.Below top parent → child ∈ tree.children parent → child.2 ≠ top

theorem heldOnce_iff_tidy : tree.HeldOnce ↔ tree.Tidy tree.root := by
  constructor
  · intro held
    constructor
    · intro parent reached
      exact ⟨(held.holds reached).named, (held.holds reached).nodup⟩
    · intro parent child reached member
      exact (held.holds reached).rootless child member
  · intro tidy
    apply heldOnce_of_holds
    intro parent reached
    exact ⟨(tidy.keeps reached).named, fun child => tidy.topless reached, (tidy.keeps reached).nodup⟩

theorem contains_of_child {parent : NodeId} {child : Slot × NodeId}
    (held : child ∈ tree.children parent) : tree.contains parent := by
  obtain ⟨shape, found, _⟩ := shape?_of_child held
  exact contains_of_shape? found

theorem children_of_nodes {other : Tree} (same : other.nodes = tree.nodes) (id : NodeId) :
    other.children id = tree.children id := by
  rw [children, shape?, node?, same]
  rfl

theorem Below.of_nodes {other : Tree} (same : other.nodes = tree.nodes) {id : NodeId}
    (below : other.Below top id) : tree.Below top id := by
  induction below with
  | self => exact .self
  | child _ held ih =>
      rw [children_of_nodes same] at held
      exact .child ih held

namespace Tidy

theorem named (tidy : tree.Tidy top) {parent : NodeId} {child : Slot × NodeId}
    (below : tree.Below top parent) (held : child ∈ tree.children parent) :
    tree.parent? child.2 = some ⟨parent, child.1⟩ :=
  (tidy.keeps below).named child held

theorem contains_child (tidy : tree.Tidy top) {parent : NodeId} {child : Slot × NodeId}
    (below : tree.Below top parent) (held : child ∈ tree.children parent) : tree.contains child.2 :=
  contains_of_parent? (tidy.named below held)

theorem contains_below (tidy : tree.Tidy top) (inside : tree.contains top) {id : NodeId}
    (below : tree.Below top id) : tree.contains id := by
  cases below with
  | self => exact inside
  | child above held => exact tidy.contains_child above held

theorem holder_eq (tidy : tree.Tidy top) {first second : NodeId} {child other : Slot × NodeId}
    (firstBelow : tree.Below top first) (secondBelow : tree.Below top second)
    (held : child ∈ tree.children first) (also : other ∈ tree.children second)
    (same : child.2 = other.2) : first = second ∧ child = other := by
  have names := tidy.named firstBelow held
  rw [same, tidy.named secondBelow also] at names
  have links := Option.some.inj names
  have slots : other.1 = child.1 := congrArg Link.slot links
  exact ⟨(congrArg Link.parent links).symm, Prod.ext slots.symm same⟩

/-- No node below is above itself. -/
theorem acyclic (tidy : tree.Tidy top) {id : NodeId} (below : tree.Below top id) {holder : NodeId}
    {child : Slot × NodeId} (inner : tree.Below id holder) (held : child ∈ tree.children holder) :
    child.2 ≠ id := by
  induction below generalizing holder child with
  | self => exact tidy.topless inner held
  | @child parent id slot above member ih =>
      rintro rfl
      -- The only holder of the node is its parent, so that the cycle passes through the parent.
      have turn := Below.trans (.child above member) inner
      obtain ⟨rfl, _⟩ := tidy.holder_eq turn above held member rfl
      cases inner with
      | self => exact ih .self member rfl
      | child last holds => exact ih (Below.trans (.child .self member) last) holds rfl

theorem sub (tidy : tree.Tidy top) {id : NodeId} (below : tree.Below top id) : tree.Tidy id where
  keeps inner := tidy.keeps (below.trans inner)
  topless inner held := tidy.acyclic below inner held

theorem not_below_child (tidy : tree.Tidy top) {parent : NodeId} {child : Slot × NodeId}
    (below : tree.Below top parent) (held : child ∈ tree.children parent) :
    ¬ tree.Below child.2 parent := by
  intro inner
  have reached : tree.Below top child.2 := .child below held
  exact tidy.acyclic reached inner held rfl

theorem holder_below (tidy : tree.Tidy top) {parent other : NodeId} {child : Slot × NodeId}
    (below : tree.Below top parent) (held : child ∈ tree.children parent)
    (reached : tree.Below top other) (inner : tree.Below other child.2) :
    child.2 = other ∨ tree.Below other parent := by
  generalize same : child.2 = id at inner
  cases inner with
  | self => exact Or.inl rfl
  | child above holds =>
      obtain ⟨rfl, _⟩ := tidy.holder_eq below (reached.trans above) held holds same
      exact Or.inr above

/-- What is below one child is not below another. -/
theorem disjoint (tidy : tree.Tidy top) {parent id : NodeId} {child other : Slot × NodeId}
    (below : tree.Below top parent) (held : child ∈ tree.children parent)
    (also : other ∈ tree.children parent) (apart : child.2 ≠ other.2)
    (inner : tree.Below child.2 id) : ¬ tree.Below other.2 id := by
  have childBelow : tree.Below top child.2 := .child below held
  have otherBelow : tree.Below top other.2 := .child below also
  induction inner with
  | self =>
      intro within
      rcases tidy.holder_below below held otherBelow within with same | above
      · exact apart same
      · exact tidy.not_below_child below also above
  | @child holder id slot above holds ih =>
      intro within
      have reached := childBelow.trans above
      rcases tidy.holder_below reached holds otherBelow within with same | inside
      · obtain ⟨rfl, _⟩ := tidy.holder_eq reached below holds also same
        exact tidy.not_below_child below held above
      · exact ih inside

theorem of_nodes {other : Tree} (tidy : tree.Tidy top) (same : other.nodes = tree.nodes) :
    other.Tidy top := by
  constructor
  · intro parent reached
    have keeps := tidy.keeps (reached.of_nodes same)
    constructor
    · intro child held
      rw [children_of_nodes same] at held
      rw [parent?, node?, same]
      exact keeps.named child held
    · rw [children_of_nodes same]
      exact keeps.nodup
  · intro parent child reached held
    rw [children_of_nodes same] at held
    exact tidy.topless (reached.of_nodes same) held

end Tidy

/-- Where the depth and the way down make up for the arena there is depth left. -/
theorem Path.depth_left {id : NodeId} {above : List NodeId} (path : tree.Path id above)
    (held : tree.HeldOnce) (rooted : tree.contains tree.root) {depth : Nat}
    (deep : tree.size ≤ depth + above.length) : ∃ less, depth = less + 1 := by
  have short := length_le_size (path.nodup held) (path.inside held rooted)
  rw [List.length_cons] at short
  exact ⟨depth - 1, by omega⟩

theorem below_of_within {depth : Nat} {id node : NodeId} (member : node ∈ tree.within depth id) :
    tree.Below id node := by
  induction depth generalizing id with
  | zero => cases member
  | succ depth ih =>
      rw [within, List.mem_cons, List.mem_flatMap] at member
      rcases member with rfl | ⟨child, held, member⟩
      · exact .self
      · obtain ⟨entry, among, rfl⟩ := List.mem_map.mp held
        exact Below.trans (.child .self (List.mem_of_mem_filter among)) (ih member)

theorem Keeps.held_eq {id : NodeId} (keeps : tree.Keeps id) :
    tree.held id = (tree.children id).map Prod.snd := by
  rw [held, List.filter_eq_self.mpr]
  intro child member
  exact decide_eq_true (keeps.named child member)

structure Matches (before after : Tree) : Prop where
  size : after.size = before.size
  children : ∀ id, after.children id = before.children id
  parent? : ∀ id, after.parent? id = before.parent? id

namespace Matches

variable {before after : Tree} (same : before.Matches after)
include same

theorem between {other : Tree} (also : before.Matches other) : after.Matches other where
  size := also.size.trans same.size.symm
  children id := (also.children id).trans (same.children id).symm
  parent? id := (also.parent? id).trans (same.parent? id).symm

theorem contains {id : NodeId} : after.contains id ↔ before.contains id := by
  rw [contains_iff, contains_iff, same.size]

theorem below {id : NodeId} (below : after.Below top id) : before.Below top id := by
  induction below with
  | self => exact .self
  | child _ held ih =>
      rw [same.children] at held
      exact .child ih held

theorem within (depth : Nat) (id : NodeId) : after.within depth id = before.within depth id := by
  induction depth generalizing id with
  | zero => rfl
  | succ depth ih =>
      have held : after.held id = before.held id := by simp only [held, same.children, same.parent?]
      rw [Tree.within, Tree.within, held]
      congr 1
      exact List.flatMap_congr fun child _ => ih child

theorem descendants (id : NodeId) : after.descendants id = before.descendants id := by
  rw [Tree.descendants, same.size]
  exact same.within before.size id

theorem heldOnce (root : after.root = before.root) (held : before.HeldOnce) : after.HeldOnce := by
  apply heldOnce_of_holds
  intro parent reached
  rw [Reaches, root] at reached
  have holds := held.holds (same.below reached)
  constructor
  · intro child member
    rw [same.children] at member
    rw [same.parent?]
    exact holds.named child member
  · intro child member
    rw [same.children] at member
    rw [root]
    exact holds.rootless child member
  · rw [same.children]
    exact holds.nodup

end Matches

end Codemod.Tree
