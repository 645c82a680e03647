import Codemod.Proofs.Print.Intact
import Codemod.Proofs.Print.Preserved
import Codemod.Proofs.Tree.Respelled

/-!
Printing a tree in which names were spelled in another way since it was read. The text is the source
with the new spellings in the places of the names. One thing more is changed: a creation on which a
method is called stands in parentheses if a name in it is spelled in another way.
-/

namespace Codemod

namespace Text

def enclose (place : Span) (edits : List Replacement) : List Replacement :=
  ⟨⟨place.start, place.start⟩, "("⟩ :: edits ++ [⟨⟨place.stop, place.stop⟩, ")"⟩]

theorem Laid.enclose {source : String} {place : Span} {edits : List Replacement}
    (laid : Laid source place (edits.map Replacement.span)) :
    Laid source place ((enclose place edits).map Replacement.span) := by
  have around := laid.around
  have spans : (Text.enclose place edits).map Replacement.span
      = ⟨place.start, place.start⟩ :: edits.map Replacement.span ++ [⟨place.stop, place.stop⟩] := by
    simp [Text.enclose]
  have cases : ∀ {span}, span ∈ ⟨place.start, place.start⟩ :: edits.map Replacement.span
        ++ [⟨place.stop, place.stop⟩] → span = ⟨place.start, place.start⟩
      ∨ span ∈ edits.map Replacement.span ∨ span = ⟨place.stop, place.stop⟩ := by
    intro span member
    simpa [or_assoc] using member
  rw [spans]
  refine ⟨around, ?_, ?_, ?_⟩
  · intro span member
    rcases cases member with rfl | inner | rfl
    · exact ⟨around.start, around.start, Nat.le_refl _⟩
    · exact laid.bounded span inner
    · exact ⟨around.stop, around.stop, Nat.le_refl _⟩
  · intro span member
    rcases cases member with rfl | inner | rfl
    · exact ⟨Nat.le_refl _, around.ordered⟩
    · exact laid.inside span inner
    · exact ⟨around.ordered, Nat.le_refl _⟩
  · rw [List.cons_append, List.pairwise_cons, List.pairwise_append]
    refine ⟨?_, laid.ordered, List.pairwise_singleton .., ?_⟩
    · intro span member
      rcases List.mem_append.mp member with inner | last
      · exact (laid.inside span inner).1
      · cases List.mem_singleton.mp last
        exact around.ordered
    · intro span inner other last
      cases List.mem_singleton.mp last
      exact (laid.inside span inner).2

end Text

namespace Tree

def isCreatedObject (tree : Tree) (id : NodeId) : Bool :=
  tree.kind? id == some .new && (tree.parent? id).any fun link =>
    link.slot == .object && tree.kind? link.parent == some .methodCall

def enclosed (tree : Tree) (id : NodeId) (place : Span) (edits : List Replacement) :
    List Replacement :=
  if tree.isCreatedObject id && !edits.isEmpty then Text.enclose place edits else edits

/-- Changes of the source at a node and below it, in order, when names are given other spellings. -/
def changes (tree : Tree) (names : List (NodeId × String)) : Nat → NodeId → List Replacement
  | 0, _ => []
  | depth + 1, id =>
      match tree.span? id with
      | none => []
      | some place => tree.enclosed id place
          (match names.lookup id with
          | some name => [⟨place, name⟩]
          | none => (tree.held id).flatMap (tree.changes names depth))

def changesAt (tree : Tree) (names : List (NodeId × String)) (id : NodeId) : List Replacement :=
  match tree.span? id, names.lookup id with
  | some place, some name => [⟨place, name⟩]
  | some place, none =>
      if tree.isCreatedObject id
          && (tree.descendants id).any fun other => (names.lookup other).isSome then
        Text.enclose place []
      else []
  | none, _ => []

variable {source : String} {before after : Tree} {names : List (NodeId × String)}
variable {options : PrintOptions}

theorem enclosed_eq_nil (tree : Tree) (id : NodeId) (place : Span) {edits : List Replacement} :
    tree.enclosed id place edits = [] ↔ edits = [] := by
  unfold enclosed Text.enclose
  split <;> simp_all

section

variable (intact : before.Intact source)

include intact in
theorem Intact.held_eq {id : NodeId} (reached : before.Reaches id) :
    before.held id = (before.children id).map Prod.snd :=
  Keeps.held_eq ((heldOnce_iff_tidy.mp intact.heldOnce).keeps reached)

include intact in
theorem Intact.older {id : NodeId} (reached : before.Reaches id) {child : Slot × NodeId}
    (held : child ∈ before.children id) : child.2.index < id.index := by
  obtain ⟨node, read⟩ := intact.read id reached
  rw [children_of_node? read.found] at held
  exact read.older child held

include intact in
theorem Intact.spanned {id : NodeId} (reached : before.Reaches id) :
    ∃ place, before.span? id = some place := by
  obtain ⟨node, read⟩ := intact.read id reached
  obtain ⟨place, spanned, _⟩ := read.spanned
  exact ⟨place, by rw [Tree.span?, read.found, Option.bind_some, spanned]⟩

include intact in
/-- The index of a node bounds the depth below it. -/
theorem Intact.within_eq {depth deeper : Nat} {id : NodeId} (reached : before.Reaches id)
    (deep : id.index < depth) (also : id.index < deeper) :
    before.within depth id = before.within deeper id := by
  induction depth generalizing deeper id with
  | zero => cases deep
  | succ depth ih =>
      obtain ⟨deeper, rfl⟩ : ∃ less, deeper = less + 1 := ⟨deeper - 1, by omega⟩
      rw [within, within, intact.held_eq reached, List.flatMap_map, List.flatMap_map]
      congr 1
      apply List.flatMap_congr
      intro child held
      have older := intact.older reached held
      exact ih (.child reached held) (by omega) (by omega)

include intact in
theorem Intact.changes_eq_nil {depth : Nat} {id : NodeId} (reached : before.Reaches id) :
    before.changes names (depth + 1) id = []
      ↔ names.lookup id = none ∧ ∀ child ∈ before.children id,
        before.changes names depth child.2 = [] := by
  obtain ⟨place, spanned⟩ := intact.spanned reached
  rw [changes, spanned]
  dsimp only
  rw [enclosed_eq_nil]
  cases names.lookup id with
  | some name => simp
  | none => simp [intact.held_eq reached, List.flatMap_eq_nil_iff, List.flatMap_map]

include intact in
/-- Nothing is changed exactly where no name below has another spelling. -/
theorem Intact.changes_eq_nil_iff (depth : Nat) {id : NodeId} (reached : before.Reaches id) :
    before.changes names depth id = []
      ↔ ∀ other ∈ before.within depth id, names.lookup other = none := by
  induction depth generalizing id with
  | zero => simp [changes, within]
  | succ depth ih =>
      rw [intact.changes_eq_nil reached, within, List.forall_mem_cons, intact.held_eq reached,
        List.flatMap_map]
      apply and_congr_right
      intro _
      constructor
      · intro none other member
        obtain ⟨child, held, inner⟩ := List.mem_flatMap.mp member
        exact (ih (.child reached held)).mp (none child held) other inner
      · intro none child held
        exact (ih (.child reached held)).mpr fun other inner =>
          none other (List.mem_flatMap.mpr ⟨child, held, inner⟩)

variable (respelled : before.Respelled names after)

include intact respelled in
theorem Respelled.pristineTo {depth : Nat} {id : NodeId} (reached : before.Reaches id) :
    after.pristineTo (depth + 1) id
      ↔ names.lookup id = none ∧ ∀ child ∈ before.children id, after.pristineTo depth child.2 := by
  obtain ⟨node, read⟩ := intact.read id reached
  obtain ⟨place, spanned, _⟩ := read.spanned
  rw [Tree.pristineTo, respelled.node?, read.found, Option.map_some, children_of_node? read.found]
  cases names.lookup id with
  | some name => simp [Node.respelled]
  | none =>
      have lengths := read.lengths
      have places : ∀ pair ∈ node.shape.children.zip node.layout,
          pair.1.1 = pair.2.1 ∧ after.span? pair.1.2 = some pair.2.2 := by
        rintro ⟨child, place⟩ member
        rw [respelled.span?]
        exact Prod.mk.inj (eq_of_mem_zip read.places member)
      simp only [Node.respelled, spanned, read.untouched, lengths, Option.isSome_some, Bool.not_false,
        beq_self_eq_true, Bool.and_self, Bool.true_and, List.all_eq_true, Bool.and_eq_true,
        beq_iff_eq, true_and]
      constructor
      · intro all child held
        obtain ⟨index, inside, rfl⟩ := List.getElem_of_mem held
        have within : index < (node.shape.children.zip node.layout).length := by
          rw [List.length_zip, ← lengths, Nat.min_self]
          exact inside
        have pair := all _ (List.getElem_mem within)
        rw [List.getElem_zip] at pair
        exact pair.2
      · intro all pair member
        exact ⟨places pair member, all pair.1 (List.of_mem_zip member).1⟩

include intact respelled in
/-- What the printer takes for untouched is what is not changed. -/
theorem Respelled.pristineTo_iff {depth deeper : Nat} {id : NodeId} (reached : before.Reaches id)
    (deep : id.index < depth) (also : id.index < deeper) :
    after.pristineTo deeper id ↔ before.changes names depth id = [] := by
  induction depth generalizing deeper id with
  | zero => cases deep
  | succ depth ih =>
      obtain ⟨deeper, rfl⟩ : ∃ less, deeper = less + 1 := ⟨deeper - 1, by omega⟩
      rw [respelled.pristineTo intact reached, intact.changes_eq_nil reached]
      apply and_congr_right
      intro _
      apply forall₂_congr
      intro child held
      have older := intact.older reached held
      exact ih (.child reached held) (by omega) (by omega)

theorem mapM_pieces {step : (Slot × NodeId) × (Slot × Span) → Except PrintError Replacement}
    {value : (Slot × NodeId) × (Slot × Span) → Replacement}
    {pairs : List ((Slot × NodeId) × (Slot × Span))}
    (each : ∀ pair ∈ pairs, step pair = .ok (value pair)) :
    pairs.mapM step = .ok (pairs.map value) := by
  induction pairs with
  | nil => rfl
  | cons pair rest ih =>
      obtain ⟨first, later⟩ := List.forall_mem_cons.mp each
      rw [List.mapM_cons, first, ih later]
      rfl

/-- A name that was spelled in another way is written so. -/
theorem printTo_name {id : NodeId} {node : Node} (found : after.node? id = some node) {name : String}
    (shape : node.shape = .name name) (touched : node.touched = true) (depth : Nat) (base : String) :
    after.printTo options (depth + 1) id base = .ok name := by
  have torn : ¬ after.isPristine id := by
    intro pristine
    obtain ⟨less, size⟩ : ∃ less, after.size = less + 1 := by
      have inside : id.index < after.size := (Array.getElem?_eq_some_iff.mp found).1
      exact ⟨after.size - 1, by omega⟩
    rw [isPristine, size, Tree.pristineTo, found] at pristine
    simp [touched] at pristine
  cases spanned : node.span with
  | none =>
      simp only [printTo, printNode, found, spanned, printCanonical, shape]
      rfl
  | some place =>
      simp only [printTo, printNode, found, spanned, if_neg torn, touched, printCanonical, shape]
      rfl

end

section

variable (intact : before.Intact source) (respelled : before.Respelled names after)

include intact respelled in
theorem Respelled.enclosed_iff {depth : Nat} {parent id : NodeId} {slot : Slot} {place : Span}
    {edits : List Replacement} (reached : before.Reaches id)
    (named : before.parent? id = some ⟨parent, slot⟩) (spanned : before.span? id = some place)
    (deep : id.index < depth)
    (changed : before.changes names depth id = before.enclosed id place edits) :
    after.Enclosed parent (slot, id) place
      ↔ (before.isCreatedObject id && !edits.isEmpty) = true := by
  have inside : id.index < after.size := by
    rw [respelled.size]
    exact contains_iff.mp (contains_of_parent? named)
  have pristine : after.InPlace id place ↔ edits = [] := by
    rw [InPlace, respelled.span?, isPristine, respelled.pristineTo_iff intact reached deep inside,
      changed, enclosed_eq_nil]
    simp [spanned]
  rw [Enclosed, pristine, respelled.kind?, respelled.kind?, isCreatedObject, named]
  simp only [Option.any_some, Bool.and_eq_true, beq_iff_eq, Bool.not_eq_true', List.isEmpty_eq_false_iff]
  tauto

include intact respelled in
/-- The text that goes in the place of a child has the changes at the child in it. -/
theorem Respelled.piece_eq {depth : Nat} {parent id : NodeId} {slot former : Slot} {place : Span}
    {edits : List Replacement} (reached : before.Reaches id)
    (named : before.parent? id = some ⟨parent, slot⟩) (spanned : before.span? id = some place)
    (deep : id.index < depth)
    (changed : before.changes names depth id = before.enclosed id place edits)
    (laid : Text.Laid before.source place (edits.map Replacement.span))
    (printed : ∀ base, after.printTo options after.size id base
      = .ok (Text.interleave before.source place edits)) :
    after.piece options parent ((slot, id), (former, place))
      = .ok ⟨place, Text.interleave before.source place (before.changes names depth id)⟩ := by
  have encloses := respelled.enclosed_iff intact reached named spanned deep changed
  have text : (if after.Enclosed parent (slot, id) place then
        "(" ++ Text.interleave before.source place edits ++ ")"
      else Text.interleave before.source place edits)
        = Text.interleave before.source place (before.changes names depth id) := by
    rw [changed, enclosed]
    by_cases around : after.Enclosed parent (slot, id) place
    · rw [if_pos around, if_pos (encloses.mp around), Text.enclose, Text.interleave_enclosed laid]
    · rw [if_neg around, if_neg fun created => around (encloses.mpr created)]
  rw [piece]
  dsimp only
  rw [printed, ← text]
  rfl

variable (sound : before.Sound) (sourced : ∀ id, before.Reaches id → ¬ before.Sourceless id)

include respelled sound in
/-- A name that is spelled in another way stands in its place. -/
theorem Respelled.printTo_spelled (held : after.HeldOnce) {id : NodeId} {above : List NodeId}
    (path : after.Path id above) {node : Node} (found : before.node? id = some node) {name : String}
    (spelling : names.lookup id = some name) (place : Span) {depth : Nat}
    (enough : after.size ≤ depth + above.length) (base : String) :
    after.printTo options depth id base
      = .ok (Text.interleave before.source place [⟨place, name⟩]) := by
  have written : after.node? id = some { node with shape := .name name, touched := true } := by
    rw [respelled.node?, found, spelling]
    rfl
  obtain ⟨less, rfl⟩ := path.depth_left held (respelled.sound sound).rooted enough
  rw [printTo_name written rfl rfl]
  simp [Text.interleave, Text.interleaveFrom]

/-- A node prints as its source with the changes at it put in, up to parentheses around it. -/
def ShowsChanges (before after : Tree) (names : List (NodeId × String)) (options : PrintOptions)
    (depth : Nat) (id : NodeId) (above : List NodeId) : Prop :=
  ∃ place edits, before.span? id = some place
    ∧ before.changes names depth id = before.enclosed id place edits
    ∧ Text.Laid before.source place (edits.map Replacement.span)
    ∧ ∀ deeper, after.size ≤ deeper + above.length → ∀ base,
      after.printTo options deeper id base = .ok (Text.interleave before.source place edits)

include intact respelled in
/-- Where the children show their changes, each has them in the place where it was read. -/
theorem Respelled.piece_shown {depth : Nat} {id : NodeId} {above : List NodeId} {node : Node}
    (reached : before.Reaches id) (read : before.AsWritten id node) (deep : id.index < depth + 1)
    (shown : ∀ child ∈ before.children id,
      ShowsChanges before after names options depth child.2 (id :: above))
    (pair : (Slot × NodeId) × (Slot × Span)) (member : pair ∈ node.shape.children.zip node.layout) :
    after.piece options id pair = .ok ⟨pair.2.2, Text.interleave before.source pair.2.2
        (before.changes names depth pair.1.2)⟩
      ∧ Text.Laid before.source pair.2.2
        ((before.changes names depth pair.1.2).map Replacement.span) := by
  obtain ⟨⟨slot, child⟩, ⟨former, place⟩⟩ := pair
  have among := (List.of_mem_zip member).1
  have holds : (slot, child) ∈ before.children id := by
    rw [children_of_node? read.found]
    exact among
  have spanned : before.span? child = some place :=
    (Prod.mk.inj (eq_of_mem_zip read.places member)).2
  have older : child.index < depth :=
    Nat.lt_of_lt_of_le (intact.older reached holds) (Nat.le_of_lt_succ deep)
  obtain ⟨_, edits, here, changed, inner, printed⟩ := shown _ holds
  cases spanned.symm.trans here
  refine ⟨respelled.piece_eq intact (.child reached holds) (read.named _ among) spanned older changed
    inner (printed after.size (Nat.le_add_right ..)), ?_⟩
  dsimp only
  rw [changed, enclosed]
  split
  · exact inner.enclose
  · exact inner

include intact respelled sound sourced in
/-- Where its children show their changes, a node that keeps its spelling does. -/
theorem Respelled.shows_unspelled (held : after.HeldOnce) {depth : Nat} {id : NodeId}
    {above : List NodeId} (path : after.Path id above) (reached : before.Reaches id)
    (deep : id.index < depth + 1) (spelling : names.lookup id = none)
    (shown : ∀ child ∈ before.children id,
      ShowsChanges before after names options depth child.2 (id :: above)) :
    ShowsChanges before after names options (depth + 1) id above := by
  have sourcedAfter : ∀ id, after.Reaches id → ¬ after.Sourceless id := by
    intro id reached
    rw [Reaches, respelled.root] at reached
    exact respelled.sourced (sourced id (respelled.same.below reached))
  obtain ⟨node, read⟩ := intact.read id reached
  obtain ⟨place, spanned, _⟩ := read.spanned
  have span : before.span? id = some place := by
    rw [Tree.span?, read.found, Option.bind_some, spanned]
  have found : after.node? id = some node := (respelled.node?_other spelling).trans read.found
  obtain ⟨pieces, mapped, _, prints⟩ := printTo_pieces (respelled.sound sound) held sourcedAfter path
    found spanned read.untouched read.slots
  have each := respelled.piece_shown intact reached read deep shown
  have pieces_eq := Except.ok.inj (mapped.symm.trans
    (mapM_pieces fun pair member => (each pair member).1))
  let pairs := (node.shape.children.zip node.layout).map fun pair =>
    (pair.2.2, before.changes names depth pair.1.2)
  have outer : Text.Laid before.source place (pairs.map Prod.fst) := by
    have places : pairs.map Prod.fst = node.layout.map Prod.snd := by
      rw [List.map_map]
      exact zip_layout_places read.lengths
    rw [places]
    exact (sound.nodes read.found place spanned).1
  have inner : ∀ pair ∈ pairs, Text.Laid before.source pair.1 (pair.2.map Replacement.span) := by
    intro pair member
    obtain ⟨entry, among, rfl⟩ := List.mem_map.mp member
    exact (each entry among).2
  have flat : pairs.flatMap Prod.snd = (before.held id).flatMap (before.changes names depth) := by
    have firsts : (node.shape.children.zip node.layout).map Prod.fst = node.shape.children :=
      List.map_fst_zip (Nat.le_of_eq read.lengths)
    calc
      _ = ((node.shape.children.zip node.layout).map Prod.fst).flatMap
          fun child => before.changes names depth child.2 := by
        rw [List.flatMap_map, List.flatMap_map]
      _ = _ := by
        rw [firsts, intact.held_eq reached, children_of_node? read.found, List.flatMap_map]
  refine ⟨place, (before.held id).flatMap (before.changes names depth), span, ?_, ?_, ?_⟩
  · rw [changes, span, spelling]
  · rw [← flat]
    exact outer.nested inner
  · intro deeper enough base
    rw [prints deeper enough base, respelled.source, pieces_eq, ← flat,
      ← Text.interleave_nested outer inner, List.map_map]
    rfl

include intact respelled sound sourced in
theorem Respelled.printTo_changes {depth : Nat} {id : NodeId} {above : List NodeId}
    (path : after.Path id above) (deep : id.index < depth) :
    ShowsChanges before after names options depth id above := by
  have held := respelled.same.heldOnce respelled.root intact.heldOnce
  -- Children are older than their parents, so the index of a node bounds the depth below it.
  induction depth generalizing id above with
  | zero => cases deep
  | succ depth ih =>
      have reached : before.Reaches id := by
        have there := path.reaches
        rw [Reaches, respelled.root] at there
        exact respelled.same.below there
      cases spelling : names.lookup id with
      | some name =>
          obtain ⟨node, read⟩ := intact.read id reached
          obtain ⟨place, spanned⟩ := intact.spanned reached
          obtain ⟨_, found, span⟩ := Option.bind_eq_some_iff.mp spanned
          have around := (sound.nodes found place span).1.around
          refine ⟨place, [⟨place, name⟩], spanned, ?_, ?_, fun deeper enough base => ?_⟩
          · rw [changes, spanned, spelling]
          · exact Text.laid_singleton around around ⟨Nat.le_refl _, Nat.le_refl _⟩
          · exact respelled.printTo_spelled sound held path read.found spelling place enough base
      | none =>
          refine respelled.shows_unspelled intact sound sourced held path reached deep spelling ?_
          intro child holds
          have older := intact.older reached holds
          exact ih (.child path (respelled.children id ▸ holds))
            (Nat.lt_of_lt_of_le older (Nat.le_of_lt_succ deep))

include intact respelled sound sourced in
/-- The tree as a whole prints as the source with all changes put in. -/
theorem Respelled.print_changes (rooted : before.kind? before.root = some .program) :
    after.print options = .ok (Text.interleave source ⟨0, source.utf8ByteSize⟩
        (before.changes names before.size before.root))
      ∧ Text.Laid source ⟨0, source.utf8ByteSize⟩
        ((before.changes names before.size before.root).map Replacement.span) := by
  have held := respelled.same.heldOnce respelled.root intact.heldOnce
  have present := (respelled.sound sound).rooted
  have inside : after.root.index < before.size := respelled.size ▸ contains_iff.mp present
  obtain ⟨place, edits, spanned, changed, laid, prints⟩ :=
    respelled.printTo_changes intact sound sourced .root inside
  have valid : after.validate = .ok () := (validate_ok_iff present).mpr held
  have plain : before.enclosed before.root place edits = edits := by
    rw [enclosed, isCreatedObject, rooted]
    rfl
  rw [respelled.root] at spanned changed prints
  rw [plain] at changed
  cases intact.whole.symm.trans spanned
  rw [intact.text] at laid prints
  rw [changed]
  refine ⟨?_, laid⟩
  rw [Tree.print, valid, respelled.root]
  exact prints after.size (Nat.le_add_right ..) ""

end

section

variable (intact : before.Intact source)

include intact in
/-- The changes are those at the nodes of the subtree, arranged in the order of the source. -/
theorem Intact.changes_perm (spelled : ∀ {id name}, names.lookup id = some name →
      ∃ former, before.shape? id = some (.name former))
    (depth : Nat) {id : NodeId} (reached : before.Reaches id) (deep : id.index < depth) :
    (before.changes names depth id).Perm
      ((before.within depth id).flatMap (before.changesAt names)) := by
  induction depth generalizing id with
  | zero => cases deep
  | succ depth ih =>
      obtain ⟨place, spanned⟩ := intact.spanned reached
      have below : ((before.held id).flatMap (before.changes names depth)).Perm
          (((before.held id).flatMap (before.within depth)).flatMap (before.changesAt names)) := by
        rw [List.flatMap_assoc, intact.held_eq reached]
        apply List.Perm.flatMap_left
        intro child member
        obtain ⟨entry, held, rfl⟩ := List.mem_map.mp member
        have older := intact.older reached held
        exact ih (.child reached held) (by omega)
      rw [changes, spanned, within, List.flatMap_cons]
      dsimp only
      cases spelling : names.lookup id with
      | some name =>
          obtain ⟨former, shaped⟩ := spelled spelling
          -- A node that is respelled is a name, with nothing below it that might change.
          have childless : before.held id = [] := by
            rw [intact.held_eq reached, children_of_shape? shaped]
            rfl
          have named : before.kind? id = some .name := by rw [Tree.kind?, shaped]; rfl
          have plain : before.isCreatedObject id = false := by
            rw [isCreatedObject, named]
            rfl
          simp [childless, enclosed, plain, changesAt, spanned, spelling]
      | none =>
          have inside : id.index < before.size := by
            obtain ⟨node, read⟩ := intact.read id reached
            exact (Array.getElem?_eq_some_iff.mp read.found).1
          have nothing : (before.held id).flatMap (before.changes names depth) = []
              ↔ (before.descendants id).any (fun other => (names.lookup other).isSome) = false := by
            rw [descendants, intact.within_eq reached inside deep, List.any_eq_false]
            have unchanged : before.changes names (depth + 1) id = [] ↔ _ :=
              intact.changes_eq_nil_iff (depth + 1) reached
            rw [changes, spanned, spelling] at unchanged
            dsimp only at unchanged
            rw [enclosed_eq_nil] at unchanged
            rw [unchanged]
            simp only [Bool.not_eq_true, Option.isSome_eq_false_iff, Option.isNone_iff_eq_none]
          -- Whether a created object is enclosed depends on whether anything below it is respelled.
          have alike : (!((before.held id).flatMap (before.changes names depth)).isEmpty)
              = (before.descendants id).any (fun other => (names.lookup other).isSome) := by
            rw [Bool.eq_iff_iff, Bool.not_eq_true', List.isEmpty_eq_false_iff, ne_eq, nothing,
              Bool.not_eq_false]
          have here : before.changesAt names id
              = if before.isCreatedObject id && !((before.held id).flatMap
                  (before.changes names depth)).isEmpty then Text.enclose place [] else [] := by
            rw [changesAt, spanned, spelling, alike]
          rw [here, enclosed]
          dsimp only
          split
          · refine .trans ?_ (below.append_left _)
            exact (List.perm_append_singleton _ _).cons _
          · exact below

end

end Tree

end Codemod
