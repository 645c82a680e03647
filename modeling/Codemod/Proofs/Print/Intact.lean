import Codemod.Proofs.Edit.Steady
import Codemod.Proofs.Print.Validity
import Codemod.Proofs.Tree.Fresh

/-!
Trees that print as their source. Every node that can be reached is still as it was read; nodes that
were added since are no concern, and neither is a back-reference of the root.
-/

namespace Codemod.Tree

variable {tree : Tree} {source : String}

abbrev AsWritten (tree : Tree) : NodeId → Node → Prop :=
  tree.AsRead fun _ _ => True

/-- The tree that was read is all that can be reached. -/
structure Intact (source : String) (tree : Tree) : Prop where
  text : tree.source = source
  whole : tree.span? tree.root = some ⟨0, source.utf8ByteSize⟩
  read : ∀ id, tree.Reaches id → ∃ node, tree.AsWritten id node
  rootless : ∀ id, tree.Reaches id → ∀ child ∈ tree.children id, child.2 ≠ tree.root

theorem Fresh.intact (fresh : Fresh (fun _ _ => True) source tree) : tree.Intact source := by
  -- The first node is left over from the empty program: no slot holds it.
  have inner : ∀ id, tree.Reaches id → 0 < id.index ∧ id.index < tree.size := by
    intro id reached
    induction reached with
    | self => exact fresh.rooted
    | @child parent id slot _ held ih =>
        obtain ⟨node, read⟩ := fresh.read parent ih.1 ih.2
        rw [children_of_node? read.found] at held
        have named := read.named _ held
        refine ⟨Nat.pos_of_ne_zero fun first => ?_, of_decide_eq_true (contains_of_parent? named)⟩
        rw [show id = ⟨0⟩ from congrArg NodeId.mk first, parent?, fresh.first] at named
        cases named
  have read := fun id reached => fresh.read id (inner id reached).1 (inner id reached).2
  refine ⟨fresh.text, fresh.whole, read, ?_⟩
  intro id reached child held same
  obtain ⟨node, written⟩ := read id reached
  rw [children_of_node? written.found] at held
  have named := written.named child held
  rw [same, fresh.unheld] at named
  cases named

theorem Quiet.children {before after : Tree} (quiet : before.Quiet after) {id : NodeId} {node : Node}
    (found : before.node? id = some node) : after.children id = before.children id := by
  obtain ⟨held, still, same⟩ := Option.map_eq_some_iff.mp (quiet.bare id node found)
  rw [children_of_node? still, children_of_node? found]
  exact congrArg (fun node => node.shape.children) same

theorem Quiet.read {before after : Tree} (quiet : before.Quiet after) {id : NodeId} {node : Node}
    (read : before.AsWritten id node) : ∃ node, after.AsWritten id node := by
  have inside : id.index < before.size := (Array.getElem?_eq_some_iff.mp read.found).1
  refine read.transport ?_ ?_
  · intro other within
    have present : other.index < before.nodes.size := Nat.lt_of_le_of_lt within inside
    have found : before.node? other = some before.nodes[other.index] :=
      Array.getElem?_eq_getElem present
    rw [quiet.bare other _ found, found, Option.map_some]
  · intro child held
    have named := read.named child held
    rw [named, quiet.named child.2 _ named]

theorem Intact.reaches {after : Tree} (intact : tree.Intact source) (quiet : tree.Quiet after)
    {id : NodeId} (reached : after.Reaches id) : tree.Reaches id := by
  -- Slots of nodes that were read are as they were, so the way down can be followed back.
  induction reached with
  | self =>
      rw [quiet.root]
      exact .self
  | child _ held ih =>
      obtain ⟨node, read⟩ := intact.read _ ih
      rw [quiet.children read.found] at held
      exact .child ih held

theorem Intact.quiet {after : Tree} (intact : tree.Intact source) (quiet : tree.Quiet after) :
    after.Intact source := by
  constructor
  · rw [quiet.source, intact.text]
  · obtain ⟨node, read⟩ := intact.read _ .self
    have bare := quiet.bare _ node read.found
    rw [← Option.map_some, ← read.found] at bare
    rw [quiet.root, span?_of_bare bare, intact.whole]
  · intro id reached
    obtain ⟨node, read⟩ := intact.read id (intact.reaches quiet reached)
    exact quiet.read read
  · intro id reached child held
    have before := intact.reaches quiet reached
    obtain ⟨node, read⟩ := intact.read id before
    rw [quiet.children read.found] at held
    rw [quiet.root]
    exact intact.rootless id before child held

theorem Intact.heldOnce (intact : tree.Intact source) : tree.HeldOnce := by
  apply heldOnce_of_holds
  intro parent reached
  obtain ⟨node, read⟩ := intact.read parent reached
  refine ⟨?_, intact.rootless parent reached, ?_⟩
  · rw [children_of_node? read.found]
    exact read.named
  · rw [children_of_node? read.found]
    exact read.nodup

theorem eq_of_mem_zip {α β γ : Type} {f : α → γ} {g : β → γ} {first : List α} {second : List β}
    (same : first.map f = second.map g) {a : α} {b : β} (member : (a, b) ∈ first.zip second) :
    f a = g b := by
  induction first generalizing second with
  | nil => cases member
  | cons head tail ih =>
      cases second with
      | nil => cases member
      | cons other rest =>
          obtain ⟨here, later⟩ := List.cons.inj same
          rcases List.mem_cons.mp member with pair | among
          · cases pair
            exact here
          · exact ih later among

theorem Intact.pristineTo (intact : tree.Intact source) {depth : Nat} {id : NodeId}
    (reached : tree.Reaches id) (deep : id.index < depth) : tree.pristineTo depth id := by
  -- Children were added before their parents, so the index of a node bounds the depth below it.
  induction depth generalizing id with
  | zero => cases deep
  | succ depth ih =>
      obtain ⟨node, read⟩ := intact.read id reached
      obtain ⟨span, spanned, _⟩ := read.spanned
      have lengths := read.lengths
      have places : ∀ pair ∈ node.shape.children.zip node.layout,
          pair.1.1 = pair.2.1 ∧ tree.span? pair.1.2 = some pair.2.2
            ∧ tree.pristineTo depth pair.1.2 := by
        rintro ⟨child, place⟩ member
        have agrees := Prod.mk.inj (eq_of_mem_zip read.places member)
        have held : child ∈ node.shape.children := (List.of_mem_zip member).1
        have older : child.2.index < depth :=
          Nat.lt_of_lt_of_le (read.older child held) (Nat.le_of_lt_succ deep)
        rw [← children_of_node? read.found] at held
        exact ⟨agrees.1, agrees.2, ih (.child reached held) older⟩
      simp only [Tree.pristineTo, read.found, Bool.and_eq_true, beq_iff_eq, List.all_eq_true]
      refine ⟨⟨⟨?_, ?_⟩, lengths⟩, ?_⟩
      · rw [spanned]
        rfl
      · rw [read.untouched]
        rfl
      · intro pair member
        obtain ⟨slots, spans, pristine⟩ := places pair member
        exact ⟨⟨slots, spans⟩, pristine⟩

/-- Whatever the options, an intact tree prints as its source. -/
theorem Intact.print (intact : tree.Intact source) (options : PrintOptions) :
    tree.print options = .ok source := by
  obtain ⟨node, read⟩ := intact.read _ .self
  have inside : tree.root.index < tree.size := (Array.getElem?_eq_some_iff.mp read.found).1
  have span : node.span = some ⟨0, source.utf8ByteSize⟩ := by
    simpa [span?, read.found] using intact.whole
  have pristine : tree.isPristine tree.root := intact.pristineTo .self inside
  have valid : tree.validate = .ok () :=
    (validate_ok_iff (decide_eq_true inside)).mpr intact.heldOnce
  cases sizes : tree.size with
  | zero =>
      rw [sizes] at inside
      cases inside
  | succ depth =>
      have printed : tree.printNode options (tree.printTo options depth) tree.root "" = .ok source := by
        simp only [printNode, read.found, span, if_pos pristine, intact.text, Text.slice_whole]
        rfl
      rw [Tree.print, valid, sizes]
      exact printed

end Codemod.Tree
