import Codemod.Proofs.Tree.Rework

/-!
Nodes in the slots made for them. A call holds its arguments in an argument list, and the list holds
arguments only, so that what rules take out of a slot is never a node that a rule has replaced. Along
the edits rules make, slots stay filed, nodes keep their kinds, and all but a few kinds of nodes stay
where they are (`Shifts`); where a step is over, either it was counted or nothing has changed
(`Counted`).
-/

namespace Codemod

-- The kind of node a slot is made for, where it is made for one only.
def Slot.content? : Slot → Option Kind
  | .argument => some .argument
  | .arguments | .constructorArguments => some .argumentList
  | _ => none

namespace Kind

-- Nodes that rules take out of their slots themselves.
def yields : Kind → Bool
  | .argument | .argumentList | .arrayItem | .literal => true
  | _ => false

def calls : Kind → Bool
  | .functionCall | .methodCall | .staticCall | .new | .argumentList => true
  | _ => false

def replaceable : Kind → Bool
  | .new | .parenthesized => true
  | _ => false

theorem stays_of_replaceable {kind : Kind} (given : kind.replaceable) : kind.yields = false := by
  cases kind <;> first | rfl | cases given

theorem free_of_replaceable {kind : Kind} (given : kind.replaceable) (slot : Slot) :
    slot.content? ≠ some kind := by
  cases kind <;> cases given <;> cases slot <;> exact nofun

end Kind

theorem Shape.free_of_kind {shape : Shape} (plain : shape.kind.calls = false) :
    ∀ child ∈ shape.children, child.1.content? = none := by
  cases shape with
  | functionCall | methodCall | staticCall | new | argumentList => cases plain
  | _ => simp [children, tagged, Slot.content?, or_imp, forall_and]

namespace Tree

variable {tree before middle after : Tree} {id old new : NodeId} {slot : Slot}

def Suits (tree : Tree) (slot : Slot) (id : NodeId) : Prop :=
  ∀ kind, slot.content? = some kind → tree.kind? id = some kind

/-- Where a node stands that no slot is made for, any other may stand. -/
theorem suits_of_free {kind : Kind} (found : tree.kind? old = some kind)
    (free : slot.content? ≠ some kind) (suits : tree.Suits slot old) (new : NodeId) :
    tree.Suits slot new := by
  intro other wants
  have same := found.symm.trans (suits other wants)
  exact absurd (wants.trans same.symm) free

/-- Every slot holds what it is made for, and the program is at the root. -/
structure Filed (tree : Tree) : Prop where
  suits : ∀ {parent child}, child ∈ tree.children parent → tree.Suits child.1 child.2
  rooted : tree.kind? tree.root = some .program

/-- Nodes keep their kinds, slots stay filed, and no edit is taken back. -/
structure Files (before after : Tree) : Prop where
  counts : before.revision ≤ after.revision
  root : after.root = before.root
  kinds : ∀ {id kind}, before.kind? id = some kind → after.kind? id = some kind
  filed : before.Filed → after.Filed

/-- Nodes of most kinds also stay in their slots. -/
structure Shifts (before after : Tree) : Prop extends Files before after where
  stays : ∀ {parent child kind}, child ∈ before.children parent →
    before.kind? child.2 = some kind → kind.yields = false → child ∈ after.children parent

structure Moved (before after : Tree) : Prop extends Shifts before after where
  more : before.revision < after.revision

/-- What was done was counted, or it was nothing. -/
structure Counted (before after : Tree) : Prop extends Shifts before after where
  told : after.commit = before.commit ∨ before.revision < after.revision

theorem Files.trans (first : before.Files middle) (second : middle.Files after) :
    before.Files after where
  counts := Nat.le_trans first.counts second.counts
  root := second.root.trans first.root
  kinds found := second.kinds (first.kinds found)
  filed filed := second.filed (first.filed filed)

theorem Shifts.trans (first : before.Shifts middle) (second : middle.Shifts after) :
    before.Shifts after where
  toFiles := first.toFiles.trans second.toFiles
  stays held found stays := second.stays (first.stays held found stays) (first.kinds found) stays

theorem Shifts.moved (shifts : before.Shifts middle) (moved : middle.Moved after) :
    before.Moved after where
  toShifts := shifts.trans moved.toShifts
  more := Nat.lt_of_le_of_lt shifts.counts moved.more

theorem Moved.trans (moved : before.Moved middle) (shifts : middle.Shifts after) :
    before.Moved after where
  toShifts := moved.toShifts.trans shifts
  more := Nat.lt_of_lt_of_le moved.more shifts.counts

theorem Moved.counted (moved : before.Moved after) : before.Counted after where
  toShifts := moved.toShifts
  told := Or.inr moved.more

theorem Counted.trans (first : before.Counted middle) (second : middle.Counted after) :
    before.Counted after where
  toShifts := first.toShifts.trans second.toShifts
  told := by
    rcases first.told with same | more
    · rcases second.told with still | more
      · exact Or.inl (still.trans same)
      · exact Or.inr (revision_of_commit same ▸ more)
    · exact Or.inr (Nat.lt_of_lt_of_le more second.counts)

/-- Nothing happens to a node but that its back-reference or its name is changed. -/
theorem shifts_of_children (counts : before.revision ≤ after.revision)
    (root : after.root = before.root) (kinds : ∀ id, after.kind? id = before.kind? id)
    (children : ∀ id, after.children id = before.children id) : before.Shifts after where
  counts := counts
  root := root
  kinds found := (kinds _).trans found
  filed filed := by
    constructor
    · intro parent child held kind wants
      rw [children] at held
      rw [kinds]
      exact filed.suits held kind wants
    · rw [root, kinds]
      exact filed.rooted
  stays held _ _ := by
    rw [children]
    exact held

theorem counted_of_commit (same : after.commit = before.commit) : before.Counted after where
  toShifts := by
    have shapes : ∀ id, after.shape? id = before.shape? id := by
      intro id
      rw [shape?, node?, nodes_of_commit same, shape?, node?]
    apply shifts_of_children (Nat.le_of_eq (revision_of_commit same).symm) (root_of_commit same)
    · intro id
      rw [kind?, shapes, kind?]
    · intro id
      rw [children, shapes, children]
  told := Or.inl same

theorem counted_refl (tree : Tree) : tree.Counted tree :=
  counted_of_commit rfl

section

variable {link : Link} {shape : Shape} {former filled : Storage} {dropped added : List NodeId}

/-- What is held after a slot was refilled was held before or has entered the slot. -/
theorem child_of_refill (found : tree.shape? link.parent = some shape)
    (holds : shape.storage? link.slot = some former)
    (change : former.Change link.slot filled dropped added) {parent : NodeId} {child : Slot × NodeId}
    (held : child ∈ (tree.refill link (shape.store link.slot filled) dropped added).children parent) :
    child ∈ tree.children parent ∨ child.1 = link.slot ∧ child.2 ∈ added := by
  by_cases here : parent = link.parent
  · subst here
    obtain ⟨gone, kept, exchange⟩ := change.exchange
    obtain ⟨at_slot, id⟩ := child
    rw [children_refill found] at held
    rw [children_of_shape? found]
    by_cases same : at_slot = link.slot
    · subst same
      rw [Shape.mem_children_slot (Shape.storage?_store holds exchange.alike),
        exchange.enters.mem_iff, List.mem_append] at held
      rw [Shape.mem_children_slot holds, exchange.leaves.mem_iff, List.mem_append]
      rcases held with enters | keeps
      · exact Or.inr ⟨rfl, enters⟩
      · exact Or.inl (Or.inr keeps)
    · exact Or.inl ((Shape.mem_children_other same).mp held)
  · rw [children_refill_other here] at held
    exact Or.inl held

theorem child_refill_of (found : tree.shape? link.parent = some shape)
    (holds : shape.storage? link.slot = some former)
    (change : former.Change link.slot filled dropped added) {parent : NodeId} {child : Slot × NodeId}
    (held : child ∈ tree.children parent) (still : child.2 ∉ dropped) :
    child ∈ (tree.refill link (shape.store link.slot filled) dropped added).children parent := by
  by_cases here : parent = link.parent
  · subst here
    obtain ⟨gone, kept, exchange⟩ := change.exchange
    obtain ⟨at_slot, id⟩ := child
    rw [children_of_shape? found] at held
    rw [children_refill found]
    by_cases same : at_slot = link.slot
    · subst same
      rw [Shape.mem_children_slot holds, exchange.leaves.mem_iff, List.mem_append] at held
      rw [Shape.mem_children_slot (Shape.storage?_store holds exchange.alike),
        exchange.enters.mem_iff, List.mem_append]
      rcases held with leaves | keeps
      · -- What leaves the slot without being dropped has come back to it.
        left
        by_contra absent
        exact still ((exchange.drops id).mpr ⟨leaves, absent⟩)
      · exact Or.inr keeps
    · exact (Shape.mem_children_other same).mpr held
  · rw [children_refill_other here]
    exact held

/-- What is dropped from a slot stood in it. -/
theorem child_of_dropped (found : tree.shape? link.parent = some shape)
    (holds : shape.storage? link.slot = some former)
    (change : former.Change link.slot filled dropped added) (drops : id ∈ dropped) :
    (link.slot, id) ∈ tree.children link.parent := by
  obtain ⟨gone, kept, exchange⟩ := change.exchange
  exact child_of_gone found holds exchange ((exchange.drops id).mp drops).1

variable (found : tree.shape? link.parent = some shape)
variable (holds : shape.storage? link.slot = some former)
variable (change : former.Change link.slot filled dropped added)
variable (suits : ∀ id ∈ added, tree.Suits link.slot id)

include found holds change suits

theorem files_refill :
    tree.Files (tree.refill link (shape.store link.slot filled) dropped added).bump := by
  have kinds : ∀ id, (tree.refill link (shape.store link.slot filled) dropped added).bump.kind? id
      = tree.kind? id :=
    kind?_refill found
  have root := (framed_refill tree link (shape.store link.slot filled) dropped added).root
  constructor
  · exact Nat.le_succ_of_le (revision_respected.refill found holds change dropped added)
  · exact root
  · intro id kind present
    rw [kinds]
    exact present
  · intro filed
    constructor
    · intro parent child held kind wants
      rw [kinds]
      rw [children_bump] at held
      rcases child_of_refill found holds change held with early | ⟨same, enters⟩
      · exact filed.suits early kind wants
      · exact suits child.2 enters kind (same ▸ wants)
    · rw [kinds]
      exact root ▸ filed.rooted

theorem moved_refill (yields : ∀ id ∈ dropped, ∀ kind, tree.kind? id = some kind → kind.yields) :
    tree.Moved (tree.refill link (shape.store link.slot filled) dropped added).bump where
  toFiles := files_refill found holds change suits
  stays := by
    intro parent child kind held present stays
    rw [children_bump]
    apply child_refill_of found holds change held
    intro drops
    rw [yields child.2 drops kind present] at stays
    cases stays
  more := Nat.lt_succ_of_le (revision_respected.refill found holds change dropped added)

end

structure Made (before after : Tree) (kind : Kind) (id : NodeId) : Prop extends
    Shifts before after where
  kind : after.kind? id = some kind
  fresh : before.kind? id = none

theorem Made.differs {kind former : Kind} (made : before.Made after kind new)
    (found : before.kind? old = some former) : old ≠ new := by
  rintro rfl
  exact nomatch found.symm.trans made.fresh

theorem Shifts.made {kind : Kind} (shifts : before.Shifts middle)
    (made : middle.Made after kind new) : before.Made after kind new where
  toShifts := shifts.trans made.toShifts
  kind := made.kind
  fresh := by
    cases found : before.kind? new with
    | none => rfl
    | some former => exact nomatch (shifts.kinds found).symm.trans made.fresh

/-- The arena has one node more, which holds nodes fit for its slots. -/
theorem made_of_shapes {shape : Shape}
    (shapes : ∀ id, after.shape? id = if id = ⟨before.size⟩ then some shape else before.shape? id)
    (root : after.root = before.root) (counts : before.revision ≤ after.revision)
    (suits : ∀ child ∈ shape.children, before.Suits child.1 child.2) :
    before.Made after shape.kind ⟨before.size⟩ := by
  have beyond : before.shape? ⟨before.size⟩ = none :=
    Option.map_eq_none_iff.mpr before.node?_next
  have kinds : ∀ {id kind}, before.kind? id = some kind → after.kind? id = some kind := by
    intro id kind found
    -- The arena had no node under the new id, so nothing old is overwritten.
    have old : id ≠ ⟨before.size⟩ := by
      rintro rfl
      rw [kind?, beyond] at found
      cases found
    rw [kind?, shapes, if_neg old]
    exact found
  have holds : ∀ id, after.children id
      = if id = ⟨before.size⟩ then shape.children else before.children id := by
    intro id
    by_cases new : id = ⟨before.size⟩
    · rw [if_pos new, children_of_shape? ((shapes id).trans (if_pos new))]
    · rw [if_neg new, children, shapes, if_neg new, children]
  constructor
  · constructor
    · constructor
      · exact counts
      · exact root
      · exact kinds
      · intro filed
        constructor
        · intro parent child held kind wants
          apply kinds
          rw [holds] at held
          split at held
          · exact suits child held kind wants
          · exact filed.suits held kind wants
        · rw [root]
          exact kinds filed.rooted
    · intro parent child kind held _ _
      have old : parent ≠ ⟨before.size⟩ := by
        rintro rfl
        rw [children, beyond] at held
        cases held
      rw [holds, if_neg old]
      exact held
  · rw [kind?, shapes, if_pos rfl]
    rfl
  · rw [kind?, beyond]
    rfl

end Tree

end Codemod
