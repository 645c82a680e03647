import Codemod.Proofs.Edit.Seat
import Codemod.Proofs.Print.Intact
import Codemod.Proofs.Print.Success

/-!
Nodes taken out of their holder. The others stay in the order they had, and beside the slots of the
holder and back-references nothing changes, so that what was untouched still is.
-/

namespace Codemod

open Step

structure Node.Thinned (node : Node) (removed : List NodeId) (left : Node) : Prop where
  span : left.span = node.span
  layout : left.layout = node.layout
  touched : left.touched = node.touched
  kind : left.shape.kind = node.shape.kind
  children : left.shape.children = node.shape.children.filter fun child => child.2 ∉ removed

namespace Tree

variable {before middle after : Tree} {holder : NodeId} {removed more : List NodeId}

/-- Nodes have left the slots of their holder; all other nodes are as they were, up to
back-references. -/
structure Thinned (before : Tree) (holder : NodeId) (removed : List NodeId) (after : Tree) :
    Prop where
  source : after.source = before.source
  size : after.size = before.size
  remains : ∀ {node}, before.node? holder = some node →
    ∃ left, after.node? holder = some left ∧ node.Thinned removed left
  others : ∀ {id}, id ≠ holder →
    (after.node? id).map Node.bare = (before.node? id).map Node.bare
  links : ∀ {id}, id ∉ removed → after.parent? id = before.parent? id

theorem thinned_refl (tree : Tree) (holder : NodeId) : tree.Thinned holder [] tree where
  source := rfl
  size := rfl
  remains {node} found := ⟨node, found, rfl, rfl, rfl, rfl, by simp⟩
  others _ := rfl
  links _ := rfl

namespace Thinned

theorem trans (first : before.Thinned holder removed middle)
    (second : middle.Thinned holder more after) : before.Thinned holder (removed ++ more) after where
  source := second.source.trans first.source
  size := second.size.trans first.size
  remains {node} found := by
    obtain ⟨left, between, thinner⟩ := first.remains found
    obtain ⟨last, there, thinnest⟩ := second.remains between
    refine ⟨last, there, thinnest.span.trans thinner.span, thinnest.layout.trans thinner.layout,
      thinnest.touched.trans thinner.touched, thinnest.kind.trans thinner.kind, ?_⟩
    rw [thinnest.children, thinner.children, List.filter_filter]
    exact List.filter_congr fun child _ => by simp [Bool.and_comm]
  others other := (second.others other).trans (first.others other)
  links absent := by
    rw [List.mem_append, not_or] at absent
    rw [second.links absent.2, first.links absent.1]

theorem children (thinned : before.Thinned holder removed after) (inside : before.contains holder) :
    after.children holder = (before.children holder).filter fun child => child.2 ∉ removed := by
  obtain ⟨node, found⟩ := node?_of_contains inside
  obtain ⟨left, there, thinner⟩ := thinned.remains found
  rw [children_of_node? there, children_of_node? found, thinner.children]

theorem keeps (thinned : before.Thinned holder removed after) (inside : before.contains holder)
    (keeps : before.Keeps holder) : after.Keeps holder := by
  have children := thinned.children inside
  constructor
  · intro child held
    rw [children, List.mem_filter] at held
    rw [thinned.links (of_decide_eq_true held.2)]
    exact keeps.named child held.1
  · rw [children]
    exact keeps.nodup.sublist (List.filter_sublist.map Prod.snd)

/-- Subtrees of nodes that were added before the holder are untouched where they have been. -/
theorem pristineTo (thinned : before.Thinned holder removed after)
    (older : ∀ {parent child}, child ∈ before.children parent → child.2.index < parent.index)
    {depth : Nat} {id : NodeId} (early : id.index < holder.index) :
    after.pristineTo depth id = before.pristineTo depth id := by
  induction depth generalizing id with
  | zero => rfl
  | succ depth ih =>
      have bare : ∀ {other : NodeId}, other.index < holder.index →
          (after.node? other).map Node.bare = (before.node? other).map Node.bare :=
        fun less => thinned.others fun same => Nat.lt_irrefl _ (same ▸ less)
      have here := bare early
      rw [Tree.pristineTo, Tree.pristineTo]
      cases found : before.node? id with
      | none =>
          rw [found, Option.map_none, Option.map_eq_none_iff] at here
          rw [here]
      | some node =>
          rw [found, Option.map_some] at here
          obtain ⟨again, there, same⟩ := Option.map_eq_some_iff.mp here
          obtain ⟨shape, span, layout, touched, _⟩ := Node.mk.inj same
          simp only [there, shape, span, layout, touched]
          congr 1
          rw [Bool.eq_iff_iff, List.all_eq_true, List.all_eq_true]
          refine forall₂_congr fun pair member => ?_
          have held : pair.1 ∈ before.children id := by
            rw [children_of_node? found]
            exact (List.of_mem_zip member).1
          have less := Nat.lt_trans (older held) early
          rw [span?_of_bare (bare less), ih less]

end Thinned

theorem removeAt_thins {slot : Slot} {id : NodeId} (keeps : before.Keeps holder)
    (held : (slot, id) ∈ before.children holder) (free : slot.arity ≠ .required) :
    ∃ after, (Edit.removeAt (some ⟨holder, slot⟩) id).run before = (.ok (), after)
      ∧ before.Thinned holder [id] after := by
  obtain ⟨shape, found, child⟩ := shape?_of_child held
  obtain ⟨storage, holds, member⟩ := Shape.storage?_of_child child
  obtain ⟨filled, removed⟩ := Storage.remove?_of_mem (Shape.storage?_free holds free) member
  have change : storage.Change slot filled [id] [] := .removed free removed
  have inside := contains_of_parent? (keeps.named _ held)
  have reseated : before.Reseated ⟨holder, slot⟩ id []
      (before.refill ⟨holder, slot⟩ (shape.store slot filled) [id] []).bump :=
    Edit.reseated_refill found holds change.alike member (Storage.remove?_ids removed)
      (fun _ => List.mem_singleton.mp) fun _ member => absurd member List.not_mem_nil
  refine ⟨_, Edit.run_removeAt found holds free removed inside, ?_⟩
  constructor
  case source => exact reseated.framed.source
  case size => exact reseated.framed.size
  case remains =>
    intro node there
    have left := (node?_bump _ holder).trans
      (before.node?_refill ⟨holder, slot⟩ (shape.store slot filled) [id] [] holder)
    rw [there, Option.map_some] at left
    refine ⟨_, left, rfl, rfl, rfl, ?_, ?_⟩
    · have same : node.shape = shape := by simpa [shape?, there] using found
      simp [Shape.kind_store, same]
    · -- No other child is the same node, so that the others are those that stand around it.
      obtain ⟨front, back, around⟩ := List.append_of_mem held
      have nodup := keeps.nodup
      rw [around, List.map_append, List.map_cons] at nodup
      obtain ⟨_, tail, apart⟩ := List.nodup_append.mp nodup
      have early : ∀ child ∈ front, child.2 ≠ id := fun child member =>
        apart child.2 (List.mem_map_of_mem member) id List.mem_cons_self
      have late : ∀ child ∈ back, child.2 ≠ id := by
        intro child member same
        have among : child.2 ∈ back.map Prod.snd := List.mem_map_of_mem member
        exact (List.nodup_cons.mp tail).1 (same ▸ among)
      have seats := reseated.seat around (fun member => early _ member rfl)
        fun member => late _ member rfl
      rw [children_of_node? left] at seats
      rw [seats, ← children_of_node? there, around, List.filter_append, List.filter_cons,
        List.filter_eq_self.mpr fun child member => by simpa using early child member,
        List.filter_eq_self.mpr fun child member => by simpa using late child member]
      simp [Shape.tagged]
  case others =>
    intro other differs
    rw [node?_bump, node?_refill, Option.map_map]
    congr 1
    funext node
    simp [Node.bare, differs]
  case links =>
    intro other absent
    exact reseated.links (fun same => absent (List.mem_singleton.mpr same)) List.not_mem_nil

/-- Children removed one after the other, in any order. -/
theorem forM_remove_thins (keeps : before.Keeps holder) (nodup : removed.Nodup)
    (held : ∀ id ∈ removed, ∃ slot, (slot, id) ∈ before.children holder ∧ slot.arity ≠ .required) :
    ∃ after, (removed.forM Edit.remove).run before = (.ok (), after)
      ∧ before.Thinned holder removed after := by
  induction removed generalizing before with
  | nil => exact ⟨before, rfl, thinned_refl before holder⟩
  | cons id rest ih =>
      obtain ⟨absent, nodupRest⟩ := List.nodup_cons.mp nodup
      obtain ⟨⟨slot, child, free⟩, heldRest⟩ := List.forall_mem_cons.mp held
      obtain ⟨node, found, points⟩ := node?_of_parent? (keeps.named _ child)
      obtain ⟨middle, removes, first⟩ := removeAt_thins keeps child free
      obtain ⟨shape, present, _⟩ := shape?_of_child child
      have inside := contains_of_shape? present
      have remain : ∀ other ∈ rest, ∃ slot, (slot, other) ∈ middle.children holder
          ∧ slot.arity ≠ .required := by
        intro other member
        obtain ⟨slot, child, free⟩ := heldRest other member
        refine ⟨slot, ?_, free⟩
        rw [first.children inside, List.mem_filter]
        refine ⟨child, decide_eq_true ?_⟩
        rw [List.mem_singleton]
        rintro rfl
        exact absent member
      obtain ⟨after, removesRest, later⟩ := ih (first.keeps inside keeps) nodupRest remain
      have unrolled : (id :: rest).forM Edit.remove
          = Edit.remove id >>= fun _ => rest.forM Edit.remove := rfl
      have here : (Edit.remove id).run before = (.ok (), middle) := by
        rw [Edit.remove, run_bind_ok (Edit.run_node_some found), points, removes]
      refine ⟨after, ?_, first.trans later⟩
      rw [unrolled, run_bind_ok here, removesRest]

end Tree

end Codemod
