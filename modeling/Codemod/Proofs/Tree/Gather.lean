import Codemod.Proofs.Tree.Rework

/-!
Building a subtree out of another. Nodes from below a node are taken one by one into new nodes, while
their former holders still have them. The heads of what was built never have anything in common, and
once a slot holds the last of them, or nothing, in place of the old node, all is held once again.
-/

namespace Codemod.Tree

variable {tree before after : Tree} {top old new : NodeId}

/-- Heads of subtrees that have nothing in common, each made of nodes from below `old` and of new
ones. Outside nothing has changed, and `old` points where it did. -/
structure Gathered (before : Tree) (old : NodeId) (after : Tree) (heads : List NodeId) : Prop where
  source : after.source = before.source
  root : after.root = before.root
  size : before.size ≤ after.size
  counts : before.revision ≤ after.revision
  nodup : heads.Nodup
  inside : ∀ head ∈ heads, after.contains head
  tidy : ∀ head ∈ heads, after.Tidy head
  apart : ∀ first ∈ heads, ∀ second ∈ heads, first ≠ second →
    ∀ {id}, after.Below first id → ¬ after.Below second id
  reach : ∀ head ∈ heads, ∀ {id}, after.Below head id →
    before.Below old id ∧ id ≠ old ∨ ¬ before.contains id
  frame : ∀ {id}, before.contains id → ¬ before.Below old id → after.node? id = before.node? id
  place : after.parent? old = before.parent? old
  kinds : ∀ {id}, before.contains id → after.kind? id = before.kind? id
  proper : before.Proper → after.Proper

theorem Tidy.gathered (tidy : tree.Tidy old) {parts : List NodeId} (nodup : parts.Nodup)
    (below : ∀ part ∈ parts, tree.Below old part ∧ part ≠ old)
    (apart : ∀ first ∈ parts, ∀ second ∈ parts, first ≠ second →
      ∀ {id}, tree.Below first id → ¬ tree.Below second id) :
    tree.Gathered old tree parts := by
  have inside : ∀ part ∈ parts, tree.contains part := by
    intro part member
    obtain ⟨reached, proper⟩ := below part member
    cases reached with
    | self => exact absurd rfl proper
    | child above held => exact tidy.contains_child above held
  constructor
  case source => rfl
  case root => rfl
  case size => exact Nat.le_refl _
  case counts => exact Nat.le_refl _
  case nodup => exact nodup
  case inside => exact inside
  case tidy => exact fun part member => tidy.sub (below part member).1
  case apart => exact apart
  case reach =>
    intro part member id inner
    obtain ⟨reached, proper⟩ := below part member
    refine Or.inl ⟨reached.trans inner, ?_⟩
    rintro rfl
    -- A node strictly below another is not above it.
    cases inner with
    | self => exact proper rfl
    | child above held => exact tidy.topless (reached.trans above) held rfl
  case frame => exact fun _ _ => rfl
  case place => rfl
  case kinds => exact fun _ => rfl
  case proper => exact id

namespace Gathered

variable {heads used rest : List NodeId} {shape : Shape}

theorem perm (gathered : before.Gathered old after heads) {others : List NodeId}
    (same : heads.Perm others) : before.Gathered old after others where
  source := gathered.source
  root := gathered.root
  size := gathered.size
  counts := gathered.counts
  nodup := same.nodup_iff.mp gathered.nodup
  inside head member := gathered.inside head (same.mem_iff.mpr member)
  tidy head member := gathered.tidy head (same.mem_iff.mpr member)
  apart first firstMember second secondMember :=
    gathered.apart first (same.mem_iff.mpr firstMember) second (same.mem_iff.mpr secondMember)
  reach head member := gathered.reach head (same.mem_iff.mpr member)
  frame := gathered.frame
  place := gathered.place
  kinds := gathered.kinds
  proper := gathered.proper

/-- Neither a head nor a node below one has the id that the next node gets. -/
theorem ne_next (gathered : before.Gathered old after heads) {head id : NodeId}
    (member : head ∈ heads) (below : after.Below head id) : id ≠ ⟨after.size⟩ :=
  ne_next_of_contains
    ((gathered.tidy head member).contains_below (gathered.inside head member) below)

/-- A node that is added comes to stand below no head. -/
theorem below_of_added (gathered : before.Gathered old after heads) {head id : NodeId}
    (member : head ∈ heads) (reached : (after.added shape).Below head id) : after.Below head id := by
  induction reached with
  | self => exact .self
  | child _ held ih =>
      rw [children_added_old after shape (gathered.ne_next member ih)] at held
      exact .child ih held

/-- What was there before and is not strictly below the old node is no head. -/
theorem not_head (gathered : before.Gathered old after heads) {id : NodeId}
    (contained : before.contains id) (outside : before.Below old id → id = old) : id ∉ heads := by
  intro member
  rcases gathered.reach id member .self with ⟨inner, proper⟩ | fresh
  · exact proper (outside inner)
  · exact fresh contained

-- A new node is put over some of the heads.

section

variable (gathered : before.Gathered old after (used ++ rest))
variable (holds : shape.children.map Prod.snd = used)

include gathered holds in
theorem contains_taken : ∀ child ∈ shape.children, after.contains child.2 := by
  intro child member
  exact gathered.inside _ (List.mem_append_left rest (holds ▸ List.mem_map_of_mem member))

include gathered holds in
/-- The new node has the heads that it took below it, and nothing else. -/
theorem below_next {id : NodeId} (reached : (after.added shape).Below ⟨after.size⟩ id) :
    id = ⟨after.size⟩ ∨ ∃ head ∈ used, after.Below head id := by
  rcases below_iff.mp reached with same | ⟨child, held, inner⟩
  · exact Or.inl same
  · rw [children_added_new] at held
    have member : child.2 ∈ used := holds ▸ List.mem_map_of_mem held
    exact Or.inr ⟨child.2, member, gathered.below_of_added (List.mem_append_left rest member) inner⟩

include gathered holds in
theorem keeps_added {head parent : NodeId} (member : head ∈ used ++ rest)
    (reached : after.Below head parent) : (after.added shape).Keeps parent := by
  apply keeps_added_old (gathered.ne_next member reached) ((gathered.tidy head member).keeps reached)
  intro child held into
  rw [holds] at into
  by_cases same : child.2 = head
  · exact (gathered.tidy head member).topless reached held same
  · exact gathered.apart head member child.2 (List.mem_append_left rest into) (Ne.symm same)
      (.child reached held) .self

include gathered holds in
theorem tidy_added {head : NodeId} (member : head ∈ used ++ rest) :
    (after.added shape).Tidy head := by
  constructor
  · exact fun reached => gathered.keeps_added holds member (gathered.below_of_added member reached)
  · intro parent child reached held
    have inner := gathered.below_of_added member reached
    rw [children_added_old after shape (gathered.ne_next member inner)] at held
    exact (gathered.tidy head member).topless inner held

include gathered holds in
theorem tidy_next : (after.added shape).Tidy ⟨after.size⟩ := by
  have present := gathered.contains_taken holds
  constructor
  · intro parent reached
    rcases gathered.below_next holds reached with rfl | ⟨head, into, inner⟩
    · exact keeps_added_new present (holds ▸ (List.nodup_append.mp gathered.nodup).1)
    · exact gathered.keeps_added holds (List.mem_append_left rest into) inner
  · intro parent child reached held
    rcases gathered.below_next holds reached with rfl | ⟨head, into, inner⟩
    · rw [children_added_new] at held
      exact ne_next_of_contains (present child held)
    · have member := List.mem_append_left rest into
      rw [children_added_old after shape (gathered.ne_next member inner)] at held
      exact gathered.ne_next member (.child inner held)

include gathered holds in
/-- The new node has nothing in common with the heads that it did not take. -/
theorem apart_next {head id : NodeId} (member : head ∈ rest)
    (reached : (after.added shape).Below ⟨after.size⟩ id) :
    ¬ (after.added shape).Below head id := by
  intro also
  have late : head ∈ used ++ rest := List.mem_append_right used member
  have inner := gathered.below_of_added late also
  rcases gathered.below_next holds reached with rfl | ⟨other, into, within⟩
  · exact gathered.ne_next late inner rfl
  · obtain ⟨_, _, disjoint⟩ := List.nodup_append.mp gathered.nodup
    exact gathered.apart other (List.mem_append_left rest into) head late
      (disjoint other into head member) within inner

include gathered holds in
theorem added (inside : before.contains old) (literal : shape.kind ≠ .literal)
    (verbatim : shape.kind ≠ .verbatim) :
    before.Gathered old (after.added shape) (⟨after.size⟩ :: rest) := by
  have late : ∀ {id}, id ∈ rest → id ∈ used ++ rest := List.mem_append_right used
  -- What the new node takes is new or stands strictly below the old one.
  have unused : ∀ {id}, before.contains id → (before.Below old id → id = old) →
      id ∉ shape.children.map Prod.snd := fun contained outside member =>
    gathered.not_head contained outside (List.mem_append_left rest (holds ▸ member))
  constructor
  case source => rw [source_added, gathered.source]
  case root => rw [root_added, gathered.root]
  case size =>
    rw [size_added]
    exact Nat.le_succ_of_le gathered.size
  case counts => exact Nat.le_trans gathered.counts (after.revision_added shape)
  case nodup =>
    refine List.nodup_cons.mpr ⟨?_, (List.nodup_append.mp gathered.nodup).2.1⟩
    exact fun member => gathered.ne_next (late member) .self rfl
  case inside =>
    intro head member
    rw [contains_iff, size_added]
    rcases List.mem_cons.mp member with rfl | other
    · exact Nat.lt_succ_self _
    · exact Nat.lt_succ_of_lt (contains_iff.mp (gathered.inside head (late other)))
  case tidy =>
    intro head member
    rcases List.mem_cons.mp member with rfl | other
    · exact gathered.tidy_next holds
    · exact gathered.tidy_added holds (late other)
  case apart =>
    intro first firstMember second secondMember differ id reached also
    rcases List.mem_cons.mp firstMember with rfl | firstRest <;>
      rcases List.mem_cons.mp secondMember with rfl | secondRest
    · exact differ rfl
    · exact gathered.apart_next holds secondRest reached also
    · exact gathered.apart_next holds firstRest also reached
    · exact gathered.apart first (late firstRest) second (late secondRest) differ
        (gathered.below_of_added (late firstRest) reached)
        (gathered.below_of_added (late secondRest) also)
  case reach =>
    intro head member id reached
    rcases List.mem_cons.mp member with rfl | other
    · rcases gathered.below_next holds reached with rfl | ⟨head, into, inner⟩
      · exact Or.inr fun present => after.not_contains_next (grown gathered.size present)
      · exact gathered.reach head (List.mem_append_left rest into) inner
    · exact gathered.reach head (late other) (gathered.below_of_added (late other) reached)
  case frame =>
    intro id contained outside
    rw [node?_added_other after (ne_next_of_contains (grown gathered.size contained))
      (unused contained fun below => absurd below outside), gathered.frame contained outside]
  case place => rw [parent?_added_other (unused inside fun _ => rfl), gathered.place]
  case kinds =>
    intro id contained
    have early := ne_next_of_contains (grown gathered.size contained)
    rw [kind?, shape?_added, if_neg early, ← kind?, gathered.kinds contained]
  case proper =>
    exact fun proper =>
      (gathered.proper proper).added (gathered.contains_taken holds) literal verbatim

end

/-- A new head takes the place of the old node once a slot holds it. -/
theorem reworked (gathered : before.Gathered old after [new]) (fresh : ¬ before.contains new)
    (loose : after.parent? new = none) (counted : before.revision < after.revision) :
    before.Reworked old after new where
  source := gathered.source
  root := gathered.root
  size := gathered.size
  counts := gathered.counts
  quiet same := absurd same (Nat.ne_of_gt counted)
  tidy := gathered.tidy new List.mem_cons_self
  reach below := by
    rcases gathered.reach new List.mem_cons_self below with ⟨inner, proper⟩ | fresh
    · exact Or.inl ⟨inner, fun same => absurd same proper⟩
    · exact Or.inr fresh
  frame := gathered.frame
  place := gathered.place
  settled := Or.inr ⟨fresh, gathered.inside new List.mem_cons_self, loose⟩
  kinds := gathered.kinds
  proper := gathered.proper

-- The slot that held the old node is given a new head, or nothing in its place.

section

variable {middle : Tree} {link : Link} {shape : Shape} {former filled : Storage}
variable {added : Option NodeId} (gathered : before.Gathered old middle added.toList)
variable (tidy : before.Tidy link.parent) (held : (link.slot, old) ∈ before.children link.parent)
variable (fresh : ∀ new ∈ added, ¬ before.contains new)
variable (found : middle.shape? link.parent = some shape)
variable (holds : shape.storage? link.slot = some former)
variable (change : former.Change link.slot filled [old] added.toList)

include gathered tidy held in
theorem around {parent : NodeId} (early : before.Below link.parent parent)
    (outside : ¬ before.Below old parent) :
    middle.children parent = before.children parent ∧ middle.Keeps parent :=
  outside_still tidy (contains_of_child held) (.child .self held) gathered.frame gathered.place
    early outside

include gathered tidy held fresh found holds change in
theorem filled_child {child : Slot × NodeId} :
    child ∈ (middle.refill link (shape.store link.slot filled) [old] added.toList).children
        link.parent
      ↔ child.1 = link.slot ∧ child.2 ∈ added.toList
        ∨ child ∈ before.children link.parent ∧ child.2 ≠ old := by
  obtain ⟨gone, kept, exchange⟩ := change.exchange
  have still := (gathered.around tidy held .self (tidy.not_below_child .self held)).1
  have slots : shape.children = before.children link.parent := by
    rw [← children_of_shape? found, still]
  have nodup : (shape.children.map Prod.snd).Nodup := slots ▸ (tidy.keeps .self).nodup
  have only_old : ∀ {id}, id ∈ gone ↔ id = old := by
    intro id
    constructor
    · intro leaves
      have child : (link.slot, id) ∈ before.children link.parent :=
        still ▸ child_of_gone found holds exchange leaves
      have early : id ∉ added.toList := fun enters =>
        fresh id (Option.mem_toList.mp enters) (tidy.contains_child .self child)
      exact List.mem_singleton.mp ((exchange.drops id).mpr ⟨leaves, early⟩)
    · rintro rfl
      exact ((exchange.drops id).mp List.mem_cons_self).1
  rw [children_refill found, Shape.mem_children_store holds exchange nodup, only_old, slots]

include gathered fresh in
/-- Beside the old node and its holder nothing has changed. -/
theorem node?_refilled {id : NodeId} (contained : before.contains id)
    (outside : ¬ before.Below old id) (other : id ≠ link.parent) :
    (middle.refill link (shape.store link.slot filled) [old] added.toList).bump.node? id
      = before.node? id := by
  have undropped : id ∉ [old] := by
    rintro member
    cases List.mem_singleton.mp member
    exact outside .self
  have early : id ∉ added.toList := fun enters => fresh id (Option.mem_toList.mp enters) contained
  rw [node?_bump, node?_refill_other other early undropped, gathered.frame contained outside]

include gathered held in
/-- The holder of the old node is below no new head. -/
theorem ne_holder (apart : ¬ before.Below old link.parent) {new id : NodeId}
    (enters : new ∈ added.toList) (inner : middle.Below new id) : id ≠ link.parent := by
  rintro rfl
  rcases gathered.reach new enters inner with ⟨within, _⟩ | absent
  · exact apart within
  · exact absent (contains_of_child held)

include gathered tidy held fresh found holds change in
/-- From the holder one walks over nodes that are as they were, or below the new head. -/
theorem below_refilled {id : NodeId} (reached : (middle.refill link
      (shape.store link.slot filled) [old] added.toList).Below link.parent id) :
    before.Below link.parent id ∧ ¬ before.Below old id
      ∨ ∃ new ∈ added.toList, middle.Below new id := by
  have apart : ¬ before.Below old link.parent := tidy.not_below_child .self held
  induction reached with
  | self => exact Or.inl ⟨.self, apart⟩
  | @child parent id slot _ member ih =>
      rcases ih with ⟨early, outside⟩ | ⟨new, enters, inner⟩
      · by_cases here : parent = link.parent
        · subst here
          rcases (gathered.filled_child tidy held fresh found holds change).mp member with
            ⟨_, enters⟩ | ⟨stays, other⟩
          · exact Or.inr ⟨id, enters, .self⟩
          · exact Or.inl ⟨.child .self stays, tidy.disjoint .self stays held other .self⟩
        · rw [children_refill_other here, (gathered.around tidy held early outside).1] at member
          refine Or.inl ⟨.child early member, ?_⟩
          intro within
          rcases tidy.holder_below early member (.child .self held) within with rfl | inner
          · exact here (tidy.holder_eq early .self member held rfl).1
          · exact outside inner
      · rw [children_refill_other (gathered.ne_holder held apart enters inner)] at member
        exact Or.inr ⟨new, enters, .child inner member⟩

include gathered tidy held fresh found holds change in
theorem keeps_refilled {parent : NodeId} (reached : (middle.refill link
      (shape.store link.slot filled) [old] added.toList).Below link.parent parent) :
    (middle.refill link (shape.store link.slot filled) [old] added.toList).Keeps parent := by
  have apart : ¬ before.Below old link.parent := tidy.not_below_child .self held
  have absent : ∀ {new}, new ∈ added.toList → ¬ before.contains new :=
    fun member => fresh _ (Option.mem_toList.mp member)
  rcases gathered.below_refilled tidy held fresh found holds change reached with
    ⟨early, outside⟩ | ⟨new, enters, inner⟩
  · obtain ⟨still, keeps⟩ := gathered.around tidy held early outside
    have old_children : ∀ child ∈ middle.children parent, child.2 ∉ added.toList := by
      intro child member enters
      exact absent enters (tidy.contains_child early (still ▸ member))
    by_cases here : parent = link.parent
    · subst here
      obtain ⟨gone, kept, exchange⟩ := change.exchange
      have single : added.toList.Nodup := by cases added <;> simp
      apply keeps_refill found holds exchange keeps gathered.inside single
      intro id enters among
      obtain ⟨child, member, rfl⟩ := List.mem_map.mp among
      exact absurd enters (old_children child member)
    · exact keeps_refill_other here keeps gathered.inside old_children
  · have below_new := gathered.tidy new enters
    apply keeps_refill_other (gathered.ne_holder held apart enters inner) (below_new.keeps inner)
      gathered.inside
    intro child member also
    have same : child.2 = new := by
      rw [Option.mem_toList] at also enters
      exact Option.some.inj (also.symm.trans enters)
    exact below_new.topless inner member same

include gathered tidy held fresh found holds change in
theorem tidy_refilled : (middle.refill link
    (shape.store link.slot filled) [old] added.toList).Tidy link.parent := by
  have apart : ¬ before.Below old link.parent := tidy.not_below_child .self held
  constructor
  · exact fun reached => gathered.keeps_refilled tidy held fresh found holds change reached
  · intro parent child reached member
    rcases gathered.below_refilled tidy held fresh found holds change reached with
      ⟨above, outside⟩ | ⟨new, enters, inner⟩
    · by_cases here : parent = link.parent
      · subst here
        rcases (gathered.filled_child tidy held fresh found holds change).mp member with
          ⟨_, enters⟩ | ⟨stays, _⟩
        · exact gathered.ne_holder held apart enters .self
        · exact tidy.topless .self stays
      · rw [children_refill_other here, (gathered.around tidy held above outside).1] at member
        exact tidy.topless above member
    · rw [children_refill_other (gathered.ne_holder held apart enters inner)] at member
      exact gathered.ne_holder held apart enters (.child inner member)

include gathered tidy held fresh found holds change in
theorem refill :
    before.Reworked link.parent
      (middle.refill link (shape.store link.slot filled) [old] added.toList).bump link.parent := by
  have inside : before.contains link.parent := contains_of_child held
  have below : before.Below link.parent old := .child .self held
  -- The holder is above the old node, so that the gathering has left it alone.
  have apart : ¬ before.Below old link.parent := tidy.not_below_child .self held
  have counted := revision_respected.refill found holds change [old] added.toList
  constructor
  case source => exact (framed_refill ..).source.trans gathered.source
  case root => exact (framed_refill ..).root.trans gathered.root
  case size => exact Nat.le_trans gathered.size (Nat.le_of_eq (framed_refill ..).size.symm)
  case counts => exact Nat.le_trans gathered.counts (Nat.le_succ_of_le counted)
  case quiet =>
    intro same
    have counts := gathered.counts
    simp only [bump] at same
    omega
  case tidy => exact (gathered.tidy_refilled tidy held fresh found holds change).of_nodes rfl
  case reach =>
    intro id reached
    rcases gathered.below_refilled tidy held fresh found holds change (reached.of_nodes (by rfl))
      with ⟨early, _⟩ | ⟨new, enters, inner⟩
    · exact Or.inl ⟨early, fun _ => rfl⟩
    · rcases gathered.reach new enters inner with ⟨within, _⟩ | absent
      · exact Or.inl ⟨below.trans within, fun _ => rfl⟩
      · exact Or.inr absent
  case frame =>
    intro id contained outside
    have other : id ≠ link.parent := fun same => outside (same ▸ .self)
    exact gathered.node?_refilled fresh contained
      (fun inner => outside (below.trans inner)) other
  case place =>
    have early : link.parent ∉ added.toList := fun enters =>
      fresh _ (Option.mem_toList.mp enters) inside
    have differs : link.parent ∉ [old] := by
      intro member
      rw [List.mem_singleton.mp member] at apart
      exact apart .self
    rw [parent?_bump, parent?_refill gathered.inside, if_neg early,
      if_neg (fun drops => differs drops.1), parent?, gathered.frame inside apart, parent?]
  case settled => exact Or.inl rfl
  case kinds =>
    intro id contained
    rw [kind?_bump, kind?_refill found, gathered.kinds contained]
  case proper =>
    intro proper
    exact ((gathered.proper proper).refill found holds change).of_nodes rfl rfl rfl

end

end Gathered

end Codemod.Tree
