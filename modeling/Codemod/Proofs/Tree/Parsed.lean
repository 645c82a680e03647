import Codemod.Proofs.Tree.Forest
import Codemod.Proofs.Tree.Fresh
import Codemod.Php.Grammar

/-!
The arena of a tree as it comes from the reader. Nodes are added from the leaves up and each is taken
up by one that is added later, so every way up grows and can only end at the root. Main statement:
nothing is left over but the first node, and every other one has one place, the layout of its own
children and a span around them (`ofProgram_parsed`).
-/

namespace Codemod

/-- Places that lie inside a window, one after the other. -/
structure Span.Nests (window : Span) (places : List Span) : Prop where
  inside : ∀ place ∈ places, window.start ≤ place.start ∧ place.stop ≤ window.stop
  ordered : places.Pairwise fun first second => first.stop ≤ second.start

instance (window : Span) (places : List Span) : Decidable (window.Nests places) :=
  decidable_of_iff ((∀ place ∈ places, window.start ≤ place.start ∧ place.stop ≤ window.stop)
      ∧ places.Pairwise fun first second => first.stop ≤ second.start)
    ⟨fun ⟨inside, ordered⟩ => ⟨inside, ordered⟩, fun ⟨inside, ordered⟩ => ⟨inside, ordered⟩⟩

theorem Span.nests_nil (window : Span) : window.Nests [] :=
  ⟨nofun, List.Pairwise.nil⟩

namespace Tree

variable {tree : Tree}

/-- The node is held by one slot position of the arena and no other, the one its back-reference
names. -/
def HeldAt (tree : Tree) (id : NodeId) : Prop :=
  ∃ place slot, tree.at? place = some (slot, id) ∧ tree.parent? id = some ⟨place.parent, slot⟩
    ∧ ∀ other otherSlot, tree.at? other = some (otherSlot, id) → other = place

/-- A node with a span that no edit has touched, and a layout that lists its children with their
slots and spans. -/
structure Arranged (tree : Tree) (node : Node) : Prop where
  spanned : node.span.isSome
  untouched : node.touched = false
  layout : node.layout.map (fun place => (place.1, some place.2))
    = node.shape.children.map fun child => (child.1, tree.span? child.2)

structure Parsed (tree : Tree) : Prop where
  revision : tree.revision = 0
  reached : ∀ id, tree.contains id → id ≠ ⟨0⟩ → tree.Reaches id
  held : ∀ id, tree.contains id → id ≠ ⟨0⟩ → id ≠ tree.root → tree.HeldAt id
  first : tree.Unheld ⟨0⟩
  root : tree.Unheld tree.root
  older : ∀ parent, ∀ child ∈ tree.children parent, child.2.index < parent.index
  laid : ∀ id node, tree.node? id = some node → id ≠ ⟨0⟩ → tree.Arranged node

namespace Fresh

variable {fits : Span → List Span → Prop} {source : String}

theorem node (fresh : Fresh fits source tree) {id : NodeId} {node : Node}
    (found : tree.node? id = some node) (later : id ≠ ⟨0⟩) : tree.AsRead fits id node := by
  have above : 0 < id.index := Nat.pos_of_ne_zero fun first => later (congrArg NodeId.mk first)
  obtain ⟨again, read⟩ := fresh.read id above (Array.getElem?_eq_some_iff.mp found).1
  cases read.found.symm.trans found
  exact read

/-- The first node holds nothing, so what holds a child was read. -/
theorem holder (fresh : Fresh fits source tree) {parent : NodeId} {child : Slot × NodeId}
    (held : child ∈ tree.children parent) :
    parent ≠ ⟨0⟩ ∧ ∃ node, tree.AsRead fits parent node ∧ child ∈ node.shape.children := by
  have later : parent ≠ ⟨0⟩ := by
    rintro rfl
    rw [children_of_node? fresh.first] at held
    cases held
  cases found : tree.node? parent with
  | none => simp [children, shape?, found] at held
  | some node =>
      rw [children_of_node? found] at held
      exact ⟨later, node, fresh.node found later, held⟩

theorem named (fresh : Fresh fits source tree) {parent : NodeId} {child : Slot × NodeId}
    (held : child ∈ tree.children parent) : tree.parent? child.2 = some ⟨parent, child.1⟩ := by
  obtain ⟨_, node, read, member⟩ := fresh.holder held
  exact read.named child member

theorem holds (fresh : Fresh fits source tree) (parent : NodeId) : tree.Holds parent where
  named child held := fresh.named held
  rootless child held := by
    intro same
    have named := fresh.named held
    rw [same, fresh.unheld] at named
    cases named
  nodup := by
    cases found : tree.node? parent with
    | none => simp [children, shape?, found]
    | some node =>
        rw [children_of_node? found]
        by_cases first : parent = ⟨0⟩
        · rw [first, fresh.first] at found
          cases found
          exact List.nodup_nil
        · exact (fresh.node found first).nodup

theorem backed (fresh : Fresh fits source tree) : tree.Backed := by
  intro id link points
  have inside : id.index < tree.size := of_decide_eq_true (contains_of_parent? points)
  have other : id ≠ tree.root := by
    rintro rfl
    rw [fresh.unheld] at points
    cases points
  have above : 0 < id.index := by
    refine Nat.pos_of_ne_zero fun first => ?_
    rw [show id = ⟨0⟩ from congrArg NodeId.mk first, parent?, fresh.first] at points
    cases points
  -- Some node has taken it, and back-references of what was taken are right.
  obtain ⟨parent, taken⟩ := fresh.taken id above inside other
  obtain ⟨⟨slot, _⟩, held, rfl⟩ := List.mem_map.mp taken
  have named := fresh.named held
  rw [points] at named
  cases named
  exact held

theorem older (fresh : Fresh fits source tree) {parent : NodeId} {child : Slot × NodeId}
    (held : child ∈ tree.children parent) : child.2.index < parent.index := by
  obtain ⟨_, node, read, member⟩ := fresh.holder held
  exact read.older child member

theorem forest (fresh : Fresh fits source tree) : tree.Forest := by
  apply forest_of_holds fresh.holds fresh.backed
  intro id cycle
  have grows : ∀ {low high}, Relation.TransGen tree.Up low high → low.index < high.index := by
    intro low high way
    induction way with
    | single up =>
        obtain ⟨slot, points⟩ := up
        exact fresh.older (fresh.backed _ _ points)
    | tail _ up ih =>
        obtain ⟨slot, points⟩ := up
        exact Nat.lt_trans ih (fresh.older (fresh.backed _ _ points))
  exact Nat.lt_irrefl _ (grows cycle)

theorem heldAt (fresh : Fresh fits source tree) {id : NodeId} (inside : tree.contains id)
    (later : id ≠ ⟨0⟩) (other : id ≠ tree.root) : tree.HeldAt id := by
  have above : 0 < id.index := Nat.pos_of_ne_zero fun first => later (congrArg NodeId.mk first)
  obtain ⟨parent, taken⟩ := fresh.taken id above (of_decide_eq_true inside) other
  obtain ⟨⟨slot, _⟩, held, rfl⟩ := List.mem_map.mp taken
  obtain ⟨index, stands⟩ := List.getElem?_of_mem held
  have stood : tree.at? ⟨parent, index⟩ = some (slot, _) := stands
  exact ⟨_, slot, stood, fresh.forest.named stood, fun _ _ again => fresh.forest.once again stood⟩

/-- Going up from a node leads to ever later ones, and the last one is the root. -/
theorem reaches (fresh : Fresh fits source tree) {id : NodeId} (inside : tree.contains id)
    (later : id ≠ ⟨0⟩) : tree.Reaches id := by
  induction left : tree.size - id.index using Nat.strongRecOn generalizing id with
  | ind left ih =>
      by_cases top : id = tree.root
      · rw [top]
        exact .self
      · obtain ⟨place, slot, stands, _⟩ := fresh.heldAt inside later top
        have held := List.mem_of_getElem? stands
        have up : id.index < place.parent.index := fresh.older held
        obtain ⟨notFirst, node, read, _⟩ := fresh.holder held
        have within : place.parent.index < tree.size :=
          (Array.getElem?_eq_some_iff.mp read.found).1
        have reached : tree.Reaches place.parent :=
          ih (tree.size - place.parent.index) (by omega) (decide_eq_true within) notFirst rfl
        exact .child reached held

theorem parsed (fresh : Fresh fits source tree) : tree.Parsed where
  revision := fresh.revision
  reached _ inside later := fresh.reaches inside later
  held _ inside later other := fresh.heldAt inside later other
  first := by
    rw [fresh.forest.unheld_iff_parent?, parent?, fresh.first]
    rfl
  root := fresh.forest.root
  older _ _ held := fresh.older held
  laid id node found later := by
    have read := fresh.node found later
    obtain ⟨span, spanned, _⟩ := read.spanned
    exact ⟨by rw [spanned]; rfl, read.untouched, read.places.symm⟩

end Fresh

/-- The one node that the reader leaves over stands for an empty program. -/
theorem ofProgram_reaches {source : String} {program : List Php.Statement} {id : NodeId} {kind : Kind}
    (read : (ofProgram source program).kind? id = some kind) (other : kind ≠ .program) :
    (ofProgram source program).Reaches id := by
  have fresh := ofProgram_read source program
  obtain ⟨shape, found, _⟩ := Option.map_eq_some_iff.mp read
  apply fresh.reaches (contains_of_shape? found)
  rintro rfl
  rw [kind?, shape?, fresh.first] at read
  exact other (Option.some.inj read).symm

/-- Whatever the program and its spans, the reader leaves an arena with one place for every node; and
where the parts of each construct lie inside it and one after the other, so do the parts of each
node. -/
theorem ofProgram_parsed (source : String) (program : List Php.Statement) :
    (ofProgram source program).Parsed
      ∧ ((∀ place ∈ Php.statementPlaces program, place.1.Nests place.2) →
        Span.Nests ⟨0, source.utf8ByteSize⟩ (program.map Php.Statement.span) →
          ∀ id node span, (ofProgram source program).node? id = some node →
            node.span = some span → span.Nests (node.layout.map Prod.snd)) := by
  constructor
  · exact (ofProgram_read source program).parsed
  · intro inner outer id node span found spanned
    have fits : OfProgram.Fit Span.Nests (Php.statementPlaces program) :=
      fun place member => ⟨inner place member, place.1.nests_nil⟩
    have fresh := ofProgram_fresh fits outer
    -- Only the first node was not read, and it has no span.
    have later : id ≠ ⟨0⟩ := by
      rintro rfl
      rw [fresh.first] at found
      cases found
      cases spanned
    obtain ⟨_, same, nests⟩ := (fresh.node found later).spanned
    cases spanned.symm.trans same
    exact nests

def nestedCalls : List Php.Statement :=
  (Php.program "<?php f(g(), 1);").toOption.getD []

/-- Thirteen nodes for two calls in one another; each has its parts in order. -/
theorem ofProgram_parsed_calls :
    (∀ place ∈ Php.statementPlaces nestedCalls, place.1.Nests place.2)
      ∧ Span.Nests ⟨0, 16⟩ (nestedCalls.map Php.Statement.span)
      ∧ (ofProgram "<?php f(g(), 1);" nestedCalls).size = 13
      ∧ (ofProgram "<?php f(g(), 1);" nestedCalls).Parsed
      ∧ ∀ id node span, (ofProgram "<?php f(g(), 1);" nestedCalls).node? id = some node →
        node.span = some span → span.Nests (node.layout.map Prod.snd) := by
  have inner : ∀ place ∈ Php.statementPlaces nestedCalls, place.1.Nests place.2 := by
    decide +kernel
  have outer : Span.Nests ⟨0, "<?php f(g(), 1);".utf8ByteSize⟩
      (nestedCalls.map Php.Statement.span) := by
    decide +kernel
  obtain ⟨parsed, nested⟩ := ofProgram_parsed "<?php f(g(), 1);" nestedCalls
  exact ⟨inner, outer, by decide +kernel, parsed, nested inner outer⟩

end Tree

end Codemod
