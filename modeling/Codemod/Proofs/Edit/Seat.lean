import Codemod.Proofs.Edit.Placement
import Mathlib.Data.List.Basic

/-!
The seat of a node among the children of its holder. The slots of a node come in a fixed order, and
what one slot holds stands together. An edit that gives up a seat, or puts a sequence in it, leaves
all that comes before and after the seat as it was.
-/

namespace Codemod

open Step

def Slot.rank : Slot → Nat
  | .statement | .part | .expression | .callee | .object | .className | .argument | .item | .key
  | .name | .type => 0
  | .method | .constructorArguments | .value | .constant | .parameter | .variable => 1
  | .arguments | .returnType | .default => 2
  | .body => 3

namespace Shape

theorem children_around {shape : Shape} {slot : Slot} {storage : Storage}
    (holds : shape.storage? slot = some storage) :
    shape.children = shape.children.filter (fun child => child.1.rank < slot.rank)
      ++ tagged slot storage.ids ++ shape.children.filter fun child => slot.rank < child.1.rank := by
  unfold storage? at holds
  split at holds <;> cases holds <;>
    simp [children, tagged, Slot.rank, Storage.ids, List.filter_map, Function.comp_def]

theorem children_store {shape : Shape} {slot : Slot} {former filled : Storage}
    (holds : shape.storage? slot = some former) (alike : former.Alike filled) :
    (shape.store slot filled).children
      = shape.children.filter (fun child => child.1.rank < slot.rank) ++ tagged slot filled.ids
        ++ shape.children.filter fun child => slot.rank < child.1.rank := by
  have others := shape.children_store_other slot filled
  have before := congrArg (List.filter fun child => child.1.rank < slot.rank) others
  have after := congrArg (List.filter fun child => slot.rank < child.1.rank) others
  -- A slot of another rank is another slot.
  have lower : ∀ child : Slot × NodeId,
      (decide (child.1.rank < slot.rank) && decide (child.1 ≠ slot))
        = decide (child.1.rank < slot.rank) := by
    intro child
    by_cases same : child.1 = slot <;> simp [same]
  have higher : ∀ child : Slot × NodeId,
      (decide (slot.rank < child.1.rank) && decide (child.1 ≠ slot))
        = decide (slot.rank < child.1.rank) := by
    intro child
    by_cases same : child.1 = slot <;> simp [same]
  simp only [List.filter_filter, lower, higher] at before after
  rw [children_around (storage?_store holds alike), before, after]

theorem storage?_list {shape : Shape} {slot : Slot} {storage : Storage}
    (holds : shape.storage? slot = some storage) (list : slot.arity = .list) :
    ∃ held, storage = .many held := by
  unfold storage? at holds
  split at holds <;> cases holds <;> first | exact ⟨_, rfl⟩ | cases list

end Shape

theorem spliceFirst_append {id : NodeId} {front : List NodeId} (absent : id ∉ front)
    (nodes back : List NodeId) :
    spliceFirst id nodes (front ++ id :: back) = front ++ nodes ++ back := by
  induction front with
  | nil => simp [spliceFirst]
  | cons other rest ih =>
      rw [List.mem_cons, not_or] at absent
      simp [spliceFirst, Ne.symm absent.1, ih absent.2]

theorem spliceFirst_nil (id : NodeId) (held : List NodeId) :
    spliceFirst id [] held = held.erase id := by
  induction held with
  | nil => rfl
  | cons other rest ih => by_cases here : other = id <;> simp [spliceFirst, here, ih]

theorem Storage.remove?_ids {storage filled : Storage} {id : NodeId}
    (removed : storage.remove? id = some filled) : filled.ids = spliceFirst id [] storage.ids := by
  cases storage with
  | one => cases removed
  | maybe held =>
      simp only [remove?, Option.ite_none_right_eq_some, Option.some.injEq] at removed
      obtain ⟨rfl, rfl⟩ := removed
      simp [ids, spliceFirst]
  | many held =>
      simp only [remove?, Option.ite_none_right_eq_some, Option.some.injEq] at removed
      obtain ⟨_, rfl⟩ := removed
      exact (spliceFirst_nil id held).symm

/-- The sequence is where the node stood. Beside that no slot has changed, and no back-reference of
another node. -/
structure Tree.Reseated (before : Tree) (link : Link) (id : NodeId) (nodes : List NodeId)
    (after : Tree) : Prop where
  framed : before.Framed after
  seat : ∀ {front back}, before.children link.parent = front ++ (link.slot, id) :: back →
    (link.slot, id) ∉ front → (link.slot, id) ∉ back →
    after.children link.parent = front ++ Shape.tagged link.slot nodes ++ back
  others : ∀ {other}, other ≠ link.parent → after.children other = before.children other
  links : ∀ {other}, other ≠ id → other ∉ nodes → after.parent? other = before.parent? other

namespace Edit

variable {tree : Tree} {link : Link} {id : NodeId}

theorem reseated_refill {shape : Shape} {former filled : Storage} {dropped nodes : List NodeId}
    (found : tree.shape? link.parent = some shape) (holds : shape.storage? link.slot = some former)
    (alike : former.Alike filled) (stood : id ∈ former.ids)
    (spliced : filled.ids = spliceFirst id nodes former.ids) (leaving : ∀ other ∈ dropped, other = id)
    (entering : ∀ node ∈ nodes, tree.contains node) :
    tree.Reseated link id nodes
      (tree.refill link (shape.store link.slot filled) dropped nodes).bump := by
  constructor
  · exact Tree.framed_ordered.trans (Tree.framed_refill ..) (Tree.framed_bump _)
  · intro front back around before after
    obtain ⟨early, late, ids, absent⟩ := List.eq_append_cons_of_mem stood
    have parts : front ++ (link.slot, id) :: back
        = (shape.children.filter (fun child => child.1.rank < link.slot.rank)
            ++ Shape.tagged link.slot early) ++ (link.slot, id) :: (Shape.tagged link.slot late
          ++ shape.children.filter fun child => link.slot.rank < child.1.rank) := by
      calc front ++ (link.slot, id) :: back
          = shape.children := around.symm.trans (Tree.children_of_shape? found)
        _ = _ := Shape.children_around holds
        _ = _ := by
            rw [ids]
            simp [Shape.tagged]
    obtain ⟨rfl, _, rfl⟩ := (List.append_cons_inj_of_notMem before after).mp parts
    have filledSlots := Shape.children_store holds alike
    rw [spliced, ids, spliceFirst_append absent] at filledSlots
    rw [Tree.children_bump, Tree.children_refill found, filledSlots]
    simp [Shape.tagged]
  · intro other differs
    rw [Tree.children_bump, Tree.children_refill_other differs]
  · intro other differs absent
    have stays : other ∉ dropped := fun leaves => differs (leaving other leaves)
    rw [Tree.parent?_bump, Tree.parent?_refill entering, if_neg absent,
      if_neg fun drops => stays drops.1]

theorem run_spliceAt {shape : Shape} {held nodes : List NodeId}
    (found : tree.shape? link.parent = some shape)
    (holds : shape.storage? link.slot = some (.many held)) (list : link.slot.arity = .list)
    (stood : id ∈ held) (leaving : tree.contains id) (entering : ∀ node ∈ nodes, tree.contains node) :
    (spliceAt (some link) id nodes).run tree = (.ok (),
      (tree.refill link (shape.store link.slot (.many (spliceFirst id nodes held)))
        (if id ∈ nodes then [] else [id]) nodes).bump) := by
  have inside : ∀ other ∈ (if id ∈ nodes then [] else [id]), tree.contains other := by
    intro other member
    split at member
    · cases member
    · cases List.mem_singleton.mp member
      exact leaving
  have refills : (refill link (shape.store link.slot (.many (spliceFirst id nodes held)))
      (if id ∈ nodes then [] else [id]) nodes).run (tree.recordNode link.parent) = _ :=
    run_refill_inside inside entering
  rw [spliceAt]
  dsimp only
  rw [if_neg (not_not_intro list), run_bind_ok (run_openSlot found holds)]
  dsimp only
  rw [if_neg (not_not_intro stood), ← refills, refill]
  by_cases back : id ∈ nodes
  · rw [if_pos back, if_neg (not_not_intro back)]
    rfl
  · rw [if_neg back, if_pos back, forM_one]

variable (held : (link.slot, id) ∈ tree.children link.parent) (leaving : tree.contains id)

include held leaving in
theorem removeAt_reseats (free : link.slot.arity ≠ .required) :
    ∃ after, (removeAt (some link) id).run tree = (.ok (), after) ∧ tree.Reseated link id [] after := by
  obtain ⟨shape, found, child⟩ := Tree.shape?_of_child held
  obtain ⟨storage, holds, member⟩ := Shape.storage?_of_child child
  obtain ⟨filled, removed⟩ := Storage.remove?_of_mem (Shape.storage?_free holds free) member
  have change : storage.Change link.slot filled [id] [] := .removed free removed
  exact ⟨_, run_removeAt found holds free removed leaving,
    reseated_refill found holds change.alike member (Storage.remove?_ids removed)
      (fun _ => List.mem_singleton.mp) nofun⟩

include held leaving in
theorem spliceAt_reseats (list : link.slot.arity = .list) {nodes : List NodeId}
    (entering : ∀ node ∈ nodes, tree.contains node) :
    ∃ after, (spliceAt (some link) id nodes).run tree = (.ok (), after)
      ∧ tree.Reseated link id nodes after := by
  obtain ⟨shape, found, child⟩ := Tree.shape?_of_child held
  obtain ⟨storage, holds, member⟩ := Shape.storage?_of_child child
  obtain ⟨many, rfl⟩ := Shape.storage?_list holds list
  refine ⟨_, run_spliceAt found holds list member leaving entering,
    reseated_refill found holds trivial member rfl ?_ entering⟩
  intro other drops
  split at drops
  · cases drops
  · exact List.mem_singleton.mp drops

end Edit

end Codemod
