import Codemod.Proofs.Print.Success
import Codemod.Proofs.Tree.Tidy

/-!
Rebuilding a subtree. A rule takes nodes from below the node it is given, builds new ones around
them, and puts these in its place: on the way nodes are held twice, and afterwards everything below
is held once again and nothing outside has changed (`Reworked`). Such steps compose, and what is done
to a subtree is done to every subtree around it.
-/

namespace Codemod.Tree

variable {tree before after : Tree} {top old new : NodeId}

/-- Other contents of a slot do not make another kind of node. -/
theorem kind?_refill {link : Link} {shape : Shape} {filled : Storage} {dropped added : List NodeId}
    (found : tree.shape? link.parent = some shape) (id : NodeId) :
    (tree.refill link (shape.store link.slot filled) dropped added).kind? id = tree.kind? id := by
  rw [kind?, shape?_refill, kind?]
  split
  · next same => simp [same, found, Shape.kind_store]
  · rfl

/-- Every node is fit to be printed, no string literal has quotes of several bytes, and verbatim
nodes have a source. -/
structure Proper (tree : Tree) : Prop where
  sound : tree.Sound
  spelled : ∀ {id literal}, tree.shape? id = some (.literal literal) → literal.misquoted = false
  sourced : ∀ id, ¬ tree.Sourceless id

theorem Proper.of_nodes {other : Tree} (proper : tree.Proper) (source : other.source = tree.source)
    (nodes : other.nodes = tree.nodes) (root : other.root = tree.root) : other.Proper := by
  constructor
  · exact sound_of_nodes source nodes root proper.sound
  · intro id literal found
    rw [shape?, node?, nodes] at found
    exact proper.spelled found
  · rintro id ⟨node, found, lacks⟩
    rw [node?, nodes] at found
    exact proper.sourced id ⟨node, found, lacks⟩

theorem Proper.of_commit {other : Tree} (proper : tree.Proper) (same : other.commit = tree.commit) :
    other.Proper :=
  proper.of_nodes (source_of_commit same) (nodes_of_commit same) (root_of_commit same)

theorem Proper.refill (proper : tree.Proper) {link : Link} {shape : Shape}
    {former filled : Storage} {dropped added : List NodeId}
    (found : tree.shape? link.parent = some shape) (holds : shape.storage? link.slot = some former)
    (change : former.Change link.slot filled dropped added) :
    (tree.refill link (shape.store link.slot filled) dropped added).Proper := by
  constructor
  · exact sound_respected.refill found holds change dropped added proper.sound
  · intro id literal read
    rw [shape?_refill] at read
    split at read
    · -- A literal has no slot that could be refilled.
      rw [Option.map_eq_some_iff] at read
      obtain ⟨_, _, stored⟩ := read
      have kind := congrArg Shape.kind stored
      rw [Shape.kind_store] at kind
      cases shape with
      | literal => cases holds
      | _ => cases kind
    · exact proper.spelled read
  · rintro id ⟨node, read, kind, spanless⟩
    rw [node?_refill] at read
    obtain ⟨held, present, rfl⟩ := Option.map_eq_some_iff.mp read
    refine proper.sourced id ⟨held, present, ?_, spanless⟩
    by_cases here : id = link.parent
    · subst here
      have same : held.shape = shape := by simpa [shape?, present] using found
      simpa [Shape.kind_store, same] using kind
    · simpa [here] using kind

theorem Proper.added (proper : tree.Proper) {shape : Shape}
    (inside : ∀ child ∈ shape.children, tree.contains child.2)
    (literal : shape.kind ≠ .literal) (verbatim : shape.kind ≠ .verbatim) :
    (tree.added shape).Proper := by
  constructor
  · have sound := sound_respected.alloc shape tree proper.sound
    rwa [Edit.run_alloc_inside inside] at sound
  · intro id spelling read
    rw [shape?_added] at read
    split at read
    · cases Option.some.inj read
      exact absurd rfl literal
    · exact proper.spelled read
  · rintro id ⟨node, read, kind, spanless⟩
    have bares := tree.bare_added shape id
    rw [read] at bares
    split at bares
    · have same : node.bare.shape = shape := by rw [Option.some.inj bares]
      exact verbatim (same ▸ kind)
    · obtain ⟨held, present, same⟩ := Option.map_eq_some_iff.mp bares.symm
      refine proper.sourced id ⟨held, present, ?_, ?_⟩
      · have shapes : held.bare.shape = node.bare.shape := by rw [same]
        exact (congrArg Shape.kind shapes).trans kind
      · have spans : held.bare.span = node.bare.span := by rw [same]
        exact spans.trans spanless

theorem Proper.renamed (proper : tree.Proper) {id : NodeId} {shape : Shape}
    (named : shape.nameText?.isSome) : ((tree.recordNode id).setData id shape).Proper := by
  have leaf : shape.children = [] := by
    cases shape <;> first | rfl | cases named
  constructor
  · exact sound_setData leaf proper.sound
  · intro other literal read
    rw [shape?, node?_setData, node?_recordNode, Option.map_map] at read
    obtain ⟨node, present, same⟩ := Option.map_eq_some_iff.mp read
    by_cases here : other = id
    · have spelling : shape = .literal literal := by simpa [here] using same
      subst spelling
      cases named
    · have former : node.shape = .literal literal := by simpa [here] using same
      have found : tree.shape? other = some (.literal literal) := by simp [shape?, present, former]
      exact proper.spelled found
  · rintro other ⟨node, read, kind, spanless⟩
    rw [node?_setData, node?_recordNode] at read
    obtain ⟨held, present, rfl⟩ := Option.map_eq_some_iff.mp read
    by_cases here : other = id
    · have verbatim : shape.kind = .verbatim := by simpa [here] using kind
      cases shape with
      | verbatim => cases named
      | _ => cases verbatim
    · exact proper.sourced other ⟨held, present, by simpa [here] using kind, spanless⟩

/-- The subtree of `old` has become that of `new`, which is `old` itself or a new node that no slot
holds yet. It is made of nodes from below `old` and of new ones; outside nothing has changed, and
`old` points where it did. No node has changed its kind, and with the same revision nothing has
changed at all. -/
structure Reworked (before : Tree) (old : NodeId) (after : Tree) (new : NodeId) : Prop where
  source : after.source = before.source
  root : after.root = before.root
  size : before.size ≤ after.size
  counts : before.revision ≤ after.revision
  quiet : after.revision = before.revision → after.commit = before.commit ∧ new = old
  tidy : after.Tidy new
  reach : ∀ {id}, after.Below new id →
    before.Below old id ∧ (id = old → new = old) ∨ ¬ before.contains id
  frame : ∀ {id}, before.contains id → ¬ before.Below old id → after.node? id = before.node? id
  place : after.parent? old = before.parent? old
  settled : new = old ∨ ¬ before.contains new ∧ after.contains new ∧ after.parent? new = none
  kinds : ∀ {id}, before.contains id → after.kind? id = before.kind? id
  proper : before.Proper → after.Proper

theorem grown (size : before.size ≤ after.size) {id : NodeId} (inside : before.contains id) :
    after.contains id :=
  contains_iff.mpr (Nat.lt_of_lt_of_le (contains_iff.mp inside) size)

theorem Tidy.reworked (tidy : tree.Tidy top) : tree.Reworked top tree top where
  source := rfl
  root := rfl
  size := Nat.le_refl _
  counts := Nat.le_refl _
  quiet _ := ⟨rfl, rfl⟩
  tidy := tidy
  reach below := Or.inl ⟨below, fun _ => rfl⟩
  frame _ _ := rfl
  place := rfl
  settled := Or.inl rfl
  kinds _ := rfl
  proper := id

theorem reworked_of_commit (tidy : before.Tidy top) (same : after.commit = before.commit) :
    before.Reworked top after top := by
  have nodes := nodes_of_commit same
  constructor
  case source => exact source_of_commit same
  case root => exact root_of_commit same
  case size => simp [size, nodes]
  case counts => exact Nat.le_of_eq (revision_of_commit same).symm
  case quiet => exact fun _ => ⟨same, rfl⟩
  case tidy => exact tidy.of_nodes nodes
  case reach => exact fun reached => Or.inl ⟨reached.of_nodes nodes, fun _ => rfl⟩
  case frame =>
    intro id _ _
    rw [node?, nodes, node?]
  case place => rw [parent?, node?, nodes, parent?, node?]
  case settled => exact Or.inl rfl
  case kinds =>
    intro id _
    rw [kind?, shape?, node?, nodes, kind?, shape?, node?]
  case proper => exact fun proper => proper.of_commit same

/-- Around a subtree that changed, nodes hold what they held. -/
theorem outside_still (tidy : before.Tidy top) (inside : before.contains top)
    (below : before.Below top old)
    (frame : ∀ {id}, before.contains id → ¬ before.Below old id → after.node? id = before.node? id)
    (place : after.parent? old = before.parent? old) {parent : NodeId}
    (early : before.Below top parent) (outside : ¬ before.Below old parent) :
    after.children parent = before.children parent ∧ after.Keeps parent := by
  have still : after.children parent = before.children parent := by
    rw [children, shape?, frame (tidy.contains_below inside early) outside, children, shape?]
  have keeps := tidy.keeps early
  refine ⟨still, ?_, still ▸ keeps.nodup⟩
  rw [still]
  intro child held
  rw [← keeps.named child held]
  by_cases enters : before.Below old child.2
  · rcases tidy.holder_below early held below enters with same | inner
    · rw [same, place]
    · exact absurd inner outside
  · rw [parent?, frame (tidy.contains_child early held) enters, parent?]

namespace Reworked

theorem contains (rework : before.Reworked old after new) (inside : before.contains old) :
    after.contains new := by
  rcases rework.settled with rfl | ⟨_, present, _⟩
  · exact grown rework.size inside
  · exact present

theorem trans {middle : Tree} {current : NodeId} (inside : before.contains old)
    (first : before.Reworked old middle current) (second : middle.Reworked current after new) :
    before.Reworked old after new := by
  have later : ∀ {id}, before.contains id → middle.Below current id → before.Below old id := by
    intro id present below
    rcases first.reach below with ⟨early, _⟩ | fresh
    · exact early
    · exact absurd present fresh
  constructor
  case source => rw [second.source, first.source]
  case root => rw [second.root, first.root]
  case size => exact Nat.le_trans first.size second.size
  case counts => exact Nat.le_trans first.counts second.counts
  case quiet =>
    intro same
    have early := first.counts
    have late := second.counts
    obtain ⟨firstSame, rfl⟩ := first.quiet (by omega)
    obtain ⟨secondSame, rfl⟩ := second.quiet (by omega)
    exact ⟨secondSame.trans firstSame, rfl⟩
  case tidy => exact second.tidy
  case reach =>
    intro id below
    rcases second.reach below with ⟨between, kept⟩ | fresh
    · rcases first.reach between with ⟨early, held⟩ | fresh
      · refine Or.inl ⟨early, ?_⟩
        rintro rfl
        have same := held rfl
        subst same
        exact kept rfl
      · exact Or.inr fresh
    · exact Or.inr fun present => fresh (grown first.size present)
  case frame =>
    intro id present outside
    rw [second.frame (grown first.size present) (fun below => outside (later present below)),
      first.frame present outside]
  case place =>
    by_cases same : current = old
    · subst same
      rw [second.place, first.place]
    · -- The old node is not below the one that replaces it, so that it is left alone.
      have apart : ¬ middle.Below current old := by
        intro below
        rcases first.reach below with ⟨_, held⟩ | fresh
        · exact same (held rfl)
        · exact fresh inside
      rw [← first.place, parent?, second.frame (grown first.size inside) apart, parent?]
  case settled =>
    rcases second.settled with rfl | ⟨fresh, present, loose⟩
    · rcases first.settled with rfl | ⟨fresh, present, loose⟩
      · exact Or.inl rfl
      · exact Or.inr ⟨fresh, grown second.size present, second.place.trans loose⟩
    · exact Or.inr ⟨fun early => fresh (grown first.size early), present, loose⟩
  case kinds =>
    intro id present
    rw [second.kinds (grown first.size present), first.kinds present]
  case proper => exact fun proper => second.proper (first.proper proper)

/-- What is done to a subtree is done to every subtree around it. -/
theorem lift (rework : before.Reworked old after old) (tidy : before.Tidy top)
    (below : before.Below top old) (inside : before.contains top) :
    before.Reworked top after top := by
  by_cases same : top = old
  · subst same
    exact rework
  have present : before.contains old := tidy.contains_below inside below
  have apart : ¬ before.Below old top := by
    intro inner
    cases inner with
    | self => exact same rfl
    | child above held => exact tidy.topless (below.trans above) held rfl
  have around : ∀ {parent}, before.Below top parent → ¬ before.Below old parent →
      after.children parent = before.children parent ∧ after.Keeps parent :=
    outside_still tidy inside below rework.frame rework.place
  -- From the top one walks over nodes that are as they were until one enters the subtree.
  have ways : ∀ {id}, after.Below top id →
      before.Below top id ∧ ¬ before.Below old id ∨ after.Below old id := by
    intro id reached
    induction reached with
    | self => exact Or.inl ⟨.self, apart⟩
    | @child parent id slot _ held ih =>
        rcases ih with ⟨early, outside⟩ | entered
        · rw [(around early outside).1] at held
          by_cases enters : before.Below old id
          · rcases tidy.holder_below early held below enters with rfl | inner
            · exact Or.inr .self
            · exact absurd inner outside
          · exact Or.inl ⟨.child early held, enters⟩
        · exact Or.inr (.child entered held)
  constructor
  case source => exact rework.source
  case root => exact rework.root
  case size => exact rework.size
  case counts => exact rework.counts
  case quiet => exact fun same => ⟨(rework.quiet same).1, rfl⟩
  case tidy =>
    constructor
    · intro parent reached
      rcases ways reached with ⟨early, outside⟩ | entered
      · exact (around early outside).2
      · exact rework.tidy.keeps entered
    · intro parent child reached held
      rcases ways reached with ⟨early, outside⟩ | entered
      · exact tidy.topless early ((around early outside).1 ▸ held)
      · rintro rfl
        rcases rework.reach (.child entered held) with ⟨inner, _⟩ | fresh
        · exact apart inner
        · exact fresh inside
  case reach =>
    intro id reached
    rcases ways reached with ⟨early, _⟩ | entered
    · exact Or.inl ⟨early, fun _ => rfl⟩
    · rcases rework.reach entered with ⟨early, _⟩ | fresh
      · exact Or.inl ⟨below.trans early, fun _ => rfl⟩
      · exact Or.inr fresh
  case frame =>
    intro id contained outside
    exact rework.frame contained fun inner => outside (below.trans inner)
  case place => rw [parent?, rework.frame inside apart, parent?]
  case settled => exact Or.inl rfl
  case kinds => exact rework.kinds
  case proper => exact rework.proper

end Reworked

end Codemod.Tree
