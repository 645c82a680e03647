import Codemod.Tree.OfProgram

/-!
How a tree is read. Nodes are added behind the ones there already, and only the nodes that the last
one holds are pointed at it; the rest of the tree stays as it is. A step of reading is described by
the loose nodes it leaves, those that no slot holds yet, and their spans; such descriptions are put
one behind the other, and a new node takes up all the loose ones (`Lowered.add`).
-/

namespace Codemod

def Node.bare (node : Node) : Node :=
  { node with parent := none }

namespace Tree

variable {tree : Tree}

theorem relink_loose (closed : tree.journal = none) {id : NodeId} (loose : tree.parent? id = none)
    (link : Link) :
    tree.relink id (some link) = { tree with
      nodes := tree.nodes.modify id.index fun node => { node with parent := some link } } := by
  have noted : tree.recordLink id = tree := by
    rw [recordLink, record, closed]
  simp [relink, loose, setParent, noted]

structure Adopted (tree : Tree) (parent : NodeId) (children : List (Slot × NodeId))
    (after : Tree) : Prop where
  frame : { after with nodes := tree.nodes } = tree
  size : after.size = tree.size
  bare : ∀ id, (after.node? id).map Node.bare = (tree.node? id).map Node.bare
  others : ∀ id, id ∉ children.map Prod.snd → after.node? id = tree.node? id
  named : ∀ child ∈ children, tree.contains child.2 →
    after.parent? child.2 = some ⟨parent, child.1⟩

theorem adopted_relink (closed : tree.journal = none) (parent : NodeId) (slot : Slot) {id : NodeId}
    (loose : tree.parent? id = none) :
    tree.Adopted parent [(slot, id)] (tree.relink id (some ⟨parent, slot⟩)) := by
  rw [relink_loose closed loose]
  constructor
  case frame => rfl
  case size => simp [size]
  case bare =>
    intro other
    simp only [node?, Array.getElem?_modify]
    split
    · rw [Option.map_map]
      rfl
    · rfl
  case others =>
    intro other apart
    have elsewhere : id.index ≠ other.index := by
      intro same
      apply apart
      cases id
      cases other
      cases same
      simp
    simp [node?, Array.getElem?_modify, elsewhere]
  case named =>
    intro child member inside
    cases List.mem_singleton.mp member
    have present : id.index < tree.nodes.size := of_decide_eq_true inside
    simp only [parent?, node?, Array.getElem?_modify, if_pos, Array.getElem?_eq_getElem present]
    rfl

theorem Adopted.closed {parent : NodeId} {children : List (Slot × NodeId)} {after : Tree}
    (adopted : tree.Adopted parent children after) : after.journal = tree.journal := by
  have journals := congrArg Tree.journal adopted.frame
  exact journals

theorem adopted_adopt (closed : tree.journal = none) (parent : NodeId)
    {children : List (Slot × NodeId)} (nodup : (children.map Prod.snd).Nodup)
    (loose : ∀ child ∈ children, tree.parent? child.2 = none) :
    tree.Adopted parent children (tree.adopt parent children) := by
  induction children generalizing tree with
  | nil =>
      refine ⟨rfl, rfl, fun _ => rfl, fun _ _ => rfl, ?_⟩
      intro child member
      cases member
  | cons child rest ih =>
      obtain ⟨slot, id⟩ := child
      obtain ⟨looseHere, looseRest⟩ := List.forall_mem_cons.mp loose
      obtain ⟨apart, nodupRest⟩ := List.nodup_cons.mp nodup
      -- The children differ, so the others are still loose when the first one is taken up.
      have first := adopted_relink closed parent slot looseHere
      have still : ∀ child ∈ rest,
          (tree.relink id (some ⟨parent, slot⟩)).parent? child.2 = none := by
        intro child member
        have other : child.2 ∉ [(slot, id)].map Prod.snd := by
          intro same
          exact apart (List.mem_map.mpr ⟨child, member, List.mem_singleton.mp same⟩)
        rw [parent?, first.others child.2 other]
        exact looseRest child member
      have later := ih (first.closed.trans closed) nodupRest still
      have both : tree.adopt parent ((slot, id) :: rest)
          = (tree.relink id (some ⟨parent, slot⟩)).adopt parent rest := rfl
      rw [both]
      constructor
      case frame =>
        have frames := congrArg (fun other : Tree => { other with nodes := tree.nodes }) later.frame
        exact frames.trans first.frame
      case size => rw [later.size, first.size]
      case bare =>
        intro other
        rw [later.bare, first.bare]
      case others =>
        intro other none
        rw [List.map_cons, List.mem_cons, not_or] at none
        rw [later.others other none.2, first.others other (by simpa using none.1)]
      case named =>
        intro child member inside
        rcases List.mem_cons.mp member with rfl | among
        · rw [parent?, later.others id apart]
          exact first.named _ List.mem_cons_self inside
        · apply later.named child among
          have sizes : (tree.relink id (some ⟨parent, slot⟩)).nodes.size = tree.nodes.size :=
            first.size
          rwa [contains, sizes]

/-- A node as it was read: its layout tells where its children stand, and they were added before it,
differ and point back at it. The spans of node and layout fit together in a given sense. -/
structure AsRead (fits : Span → List Span → Prop) (tree : Tree) (id : NodeId) (node : Node) :
    Prop where
  found : tree.node? id = some node
  spanned : ∃ span, node.span = some span ∧ fits span (node.layout.map Prod.snd)
  untouched : node.touched = false
  places : node.shape.children.map (fun child => (child.1, tree.span? child.2))
    = node.layout.map fun place => (place.1, some place.2)
  older : ∀ child ∈ node.shape.children, child.2.index < id.index
  named : ∀ child ∈ node.shape.children, tree.parent? child.2 = some ⟨id, child.1⟩
  nodup : (node.shape.children.map Prod.snd).Nodup

variable {fits : Span → List Span → Prop}

/-- A node has as many children as it was read with. -/
theorem AsRead.lengths {id : NodeId} {node : Node} (read : tree.AsRead fits id node) :
    node.shape.children.length = node.layout.length := by
  simpa using congrArg List.length read.places

theorem AsRead.slots {id : NodeId} {node : Node} (read : tree.AsRead fits id node) :
    node.shape.children.map Prod.fst = node.layout.map Prod.fst := by
  simpa [Function.comp_def] using congrArg (List.map Prod.fst) read.places

theorem span?_of_bare {other : Tree} {id : NodeId}
    (bare : (other.node? id).map Node.bare = (tree.node? id).map Node.bare) :
    other.span? id = tree.span? id := by
  have spans := congrArg (fun held => held.bind Node.span) bare
  simp only [Option.bind_map] at spans
  exact spans

theorem shape?_of_bare {other : Tree} {id : NodeId}
    (bare : (other.node? id).map Node.bare = (tree.node? id).map Node.bare) :
    other.shape? id = tree.shape? id := by
  have shapes := congrArg (fun held => held.map Node.shape) bare
  simp only [Option.map_map] at shapes
  exact shapes

/-- A node stays as it was read while only back-references change, and not those of its children. -/
theorem AsRead.transport {after : Tree} {id : NodeId} {node : Node}
    (read : tree.AsRead fits id node)
    (bare : ∀ other, other.index ≤ id.index →
      (after.node? other).map Node.bare = (tree.node? other).map Node.bare)
    (parents : ∀ child ∈ node.shape.children, after.parent? child.2 = tree.parent? child.2) :
    ∃ node, after.AsRead fits id node := by
  have here := bare id (Nat.le_refl _)
  rw [read.found, Option.map_some] at here
  obtain ⟨other, found, same⟩ := Option.map_eq_some_iff.mp here
  obtain ⟨shape, span, layout, touched, _⟩ := Node.mk.inj same
  refine ⟨other, found, ?_, ?_, ?_, ?_, ?_, ?_⟩
  · rw [span, layout]
    exact read.spanned
  · rw [touched]
    exact read.untouched
  · rw [shape, layout, ← read.places]
    apply List.map_congr_left
    intro child held
    rw [span?_of_bare (bare child.2 (Nat.le_of_lt (read.older child held)))]
  · rw [shape]
    exact read.older
  · rw [shape]
    intro child held
    rw [parents child held]
    exact read.named child held
  · rw [shape]
    exact read.nodup

/-- A tree that grew by nodes as they were read, of which the given ones are loose and all others
have been taken up. -/
structure Lowered (fits : Span → List Span → Prop) (base : Tree) (loose : List NodeId)
    (spans : List Span) (tree : Tree) : Prop where
  frame : { tree with nodes := base.nodes } = base
  grows : base.size ≤ tree.size
  old : ∀ id, id.index < base.size → tree.node? id = base.node? id
  read : ∀ id, base.size ≤ id.index → id.index < tree.size → ∃ node, tree.AsRead fits id node
  fresh : ∀ id ∈ loose, base.size ≤ id.index ∧ id.index < tree.size
  unheld : ∀ id ∈ loose, tree.parent? id = none
  taken : ∀ id, base.size ≤ id.index → id.index < tree.size → id ∉ loose →
    ∃ parent, id ∈ (tree.children parent).map Prod.snd
  nodup : loose.Nodup
  spans : loose.map tree.span? = spans.map some

theorem lowered_refl (tree : Tree) : tree.Lowered fits [] [] tree where
  frame := rfl
  grows := Nat.le_refl _
  old _ _ := rfl
  read id above below := absurd (Nat.lt_of_le_of_lt above below) (Nat.lt_irrefl _)
  fresh id member := by cases member
  unheld id member := by cases member
  taken id above below := absurd (Nat.lt_of_le_of_lt above below) (Nat.lt_irrefl _)
  nodup := List.nodup_nil
  spans := rfl

theorem size_of_held {id parent : NodeId} (held : id ∈ (tree.children parent).map Prod.snd) :
    parent.index < tree.size := by
  rcases Nat.lt_or_ge parent.index tree.size with inside | outside
  · exact inside
  · have missing : tree.node? parent = none := Array.getElem?_eq_none outside
    simp [children, shape?, missing] at held

theorem frame_trans {base middle after : Tree} (first : { middle with nodes := base.nodes } = base)
    (second : { after with nodes := middle.nodes } = middle) :
    { after with nodes := base.nodes } = base := by
  have frames := congrArg (fun other : Tree => { other with nodes := base.nodes }) second
  exact frames.trans first

theorem Lowered.append {base middle after : Tree} {loose more : List NodeId}
    {spans others : List Span} (first : base.Lowered fits loose spans middle)
    (second : middle.Lowered fits more others after) :
    base.Lowered fits (loose ++ more) (spans ++ others) after := by
  -- What is lowered second leaves the nodes of the first as they are.
  have kept : ∀ id ∈ loose, after.node? id = middle.node? id :=
    fun id member => second.old id (first.fresh id member).2
  constructor
  case frame => exact frame_trans first.frame second.frame
  case grows => exact Nat.le_trans first.grows second.grows
  case old =>
    intro id inside
    rw [second.old id (Nat.lt_of_lt_of_le inside first.grows), first.old id inside]
  case read =>
    intro id above below
    by_cases before : id.index < middle.size
    · obtain ⟨node, read⟩ := first.read id above before
      refine read.transport ?_ ?_
      · intro other within
        rw [second.old other (Nat.lt_of_le_of_lt within before)]
      · intro child held
        rw [parent?, parent?, second.old child.2 (Nat.lt_trans (read.older child held) before)]
    · exact second.read id (Nat.le_of_not_lt before) below
  case fresh =>
    intro id member
    rcases List.mem_append.mp member with early | late
    · have bounds := first.fresh id early
      exact ⟨bounds.1, Nat.lt_of_lt_of_le bounds.2 second.grows⟩
    · have bounds := second.fresh id late
      exact ⟨Nat.le_trans first.grows bounds.1, bounds.2⟩
  case unheld =>
    intro id member
    rcases List.mem_append.mp member with early | late
    · rw [parent?, kept id early]
      exact first.unheld id early
    · exact second.unheld id late
  case taken =>
    intro id above below apart
    rw [List.mem_append, not_or] at apart
    by_cases before : id.index < middle.size
    · obtain ⟨parent, held⟩ := first.taken id above before apart.1
      refine ⟨parent, ?_⟩
      rwa [children, shape?, second.old parent (size_of_held held)]
    · exact second.taken id (Nat.le_of_not_lt before) below apart.2
  case nodup =>
    refine List.nodup_append.mpr ⟨first.nodup, second.nodup, ?_⟩
    rintro id early other late rfl
    have before := (first.fresh id early).2
    have behind := (second.fresh id late).1
    omega
  case spans =>
    rw [List.map_append, List.map_append, ← first.spans, ← second.spans]
    congr 1
    apply List.map_congr_left
    intro id member
    rw [span?, kept id member, span?]

def layoutOf (tree : Tree) (children : List (Slot × NodeId)) : List (Slot × Span) :=
  children.filterMap fun child => (tree.span? child.2).map fun span => (child.1, span)

theorem layoutOf_places {children : List (Slot × NodeId)} {spans : List Span}
    (spanned : (children.map Prod.snd).map tree.span? = spans.map some) :
    children.map (fun child => (child.1, tree.span? child.2))
        = (tree.layoutOf children).map (fun place => (place.1, some place.2))
      ∧ (tree.layoutOf children).map Prod.snd = spans := by
  induction children generalizing spans with
  | nil =>
      have none : spans = [] := by simpa using spanned.symm
      exact ⟨rfl, none.symm⟩
  | cons child rest ih =>
      cases spans with
      | nil => cases spanned
      | cons span others =>
          obtain ⟨here, later⟩ := List.cons.inj spanned
          obtain ⟨places, inner⟩ := ih later
          have layout : tree.layoutOf (child :: rest) = (child.1, span) :: tree.layoutOf rest := by
            simp [layoutOf, here]
          rw [layout, List.map_cons, List.map_cons, List.map_cons, places, inner, here]
          exact ⟨rfl, rfl⟩

/-- A tree in which one more node, as it was read, has taken up its children. -/
structure Topped (tree : Tree) (shape : Shape) (span : Span) (after : Tree) : Prop where
  frame : { after with nodes := tree.nodes } = tree
  size : after.size = tree.size + 1
  bare : ∀ id, id.index < tree.size →
    (after.node? id).map Node.bare = (tree.node? id).map Node.bare
  others : ∀ id, id.index < tree.size → id ∉ shape.children.map Prod.snd →
    after.node? id = tree.node? id
  new : after.node? ⟨tree.size⟩
    = some { shape, span := some span, layout := tree.layoutOf shape.children }
  named : ∀ child ∈ shape.children, after.parent? child.2 = some ⟨⟨tree.size⟩, child.1⟩

theorem appendParsed_topped (closed : tree.journal = none) {shape : Shape} (span : Span)
    (nodup : (shape.children.map Prod.snd).Nodup)
    (loose : ∀ child ∈ shape.children, child.2.index < tree.size ∧ tree.parent? child.2 = none) :
    tree.Topped shape span (tree.appendParsed shape span).2 := by
  let node : Node := { shape, span := some span, layout := tree.layoutOf shape.children }
  have grown : (tree.append node).size = tree.size + 1 := Array.size_push ..
  have before : ∀ id, id.index < tree.size → (tree.append node).node? id = tree.node? id := by
    intro id inside
    exact (Array.getElem?_push_lt inside).trans (Array.getElem?_eq_getElem inside).symm
  have still : (tree.append node).journal = none := closed
  have framed : { tree.append node with nodes := tree.nodes } = tree := rfl
  have adopted : (tree.append node).Adopted ⟨tree.size⟩ shape.children
      (tree.appendParsed shape span).2 := by
    refine adopted_adopt still ⟨tree.size⟩ nodup fun child member => ?_
    rw [parent?, before child.2 (loose child member).1]
    exact (loose child member).2
  constructor
  case frame => exact frame_trans framed adopted.frame
  case size => exact adopted.size.trans grown
  case bare =>
    intro id early
    rw [adopted.bare, before id early]
  case others =>
    intro id early apart
    rw [adopted.others id apart, before id early]
  case new =>
    have unheld : (⟨tree.size⟩ : NodeId) ∉ shape.children.map Prod.snd := by
      intro member
      obtain ⟨child, among, same⟩ := List.mem_map.mp member
      exact Nat.ne_of_lt (loose child among).1 (congrArg NodeId.index same)
    exact (adopted.others _ unheld).trans Array.getElem?_push_size
  case named =>
    intro child member
    apply adopted.named child member
    apply decide_eq_true
    have early := (loose child member).1
    have count : (tree.append node).nodes.size = tree.size + 1 := grown
    omega

section

variable {after : Tree} {shape : Shape} {span : Span} (topped : tree.Topped shape span after)

include topped in
/-- Nodes that hold none of the children that were taken up are as they were read. -/
theorem Topped.read_old {id : NodeId} {node : Node} (early : id.index < tree.size)
    (read : tree.AsRead fits id node)
    (apart : ∀ child ∈ node.shape.children, child.2 ∉ shape.children.map Prod.snd) :
    ∃ node, after.AsRead fits id node := by
  refine read.transport (fun other within => topped.bare other (Nat.lt_of_le_of_lt within early)) ?_
  intro child held
  have older := Nat.lt_trans (read.older child held) early
  rw [parent?, topped.others child.2 older (apart child held), parent?]

include topped in
theorem Topped.read_new {spans : List Span}
    (inside : ∀ child ∈ shape.children, child.2.index < tree.size)
    (nodup : (shape.children.map Prod.snd).Nodup)
    (spanned : (shape.children.map Prod.snd).map tree.span? = spans.map some)
    (fit : fits span spans) : ∃ node, after.AsRead fits ⟨tree.size⟩ node := by
  obtain ⟨places, layout⟩ := layoutOf_places spanned
  refine ⟨_, topped.new, ⟨span, rfl, ?_⟩, rfl, ?_, inside, topped.named, nodup⟩
  · rw [layout]
    exact fit
  · rw [← places]
    apply List.map_congr_left
    intro child member
    rw [span?_of_bare (topped.bare child.2 (inside child member))]

end

/-- A new node takes up all the loose nodes. -/
theorem Lowered.add {base : Tree} {loose : List NodeId} {spans : List Span} {shape : Shape}
    {span : Span} (lowered : base.Lowered fits loose spans tree) (closed : tree.journal = none)
    (held : shape.children.map Prod.snd = loose) (fit : fits span spans) :
    base.Lowered fits [(tree.appendParsed shape span).1] [span] (tree.appendParsed shape span).2 := by
  subst held
  have inside : ∀ child ∈ shape.children, child.2.index < tree.size := fun child member =>
    (lowered.fresh child.2 (List.mem_map_of_mem member)).2
  have topped := appendParsed_topped closed span lowered.nodup fun child member =>
    ⟨inside child member, lowered.unheld child.2 (List.mem_map_of_mem member)⟩
  have last : (tree.appendParsed shape span).1 = ⟨tree.size⟩ := rfl
  rw [last]
  generalize (tree.appendParsed shape span).2 = after at topped
  constructor
  case frame => exact frame_trans lowered.frame topped.frame
  case grows =>
    rw [topped.size]
    exact Nat.le_succ_of_le lowered.grows
  case old =>
    intro id early
    have apart : id ∉ shape.children.map Prod.snd := fun member =>
      absurd early (Nat.not_lt.mpr (lowered.fresh id member).1)
    rw [topped.others id (Nat.lt_of_lt_of_le early lowered.grows) apart, lowered.old id early]
  case read =>
    intro id above below
    rw [topped.size] at below
    rcases Nat.lt_succ_iff_lt_or_eq.mp below with early | same
    · obtain ⟨node, read⟩ := lowered.read id above early
      refine topped.read_old early read fun child member among => ?_
      -- The child points at its holder already, so it is not one of the loose nodes.
      cases (lowered.unheld child.2 among).symm.trans (read.named child member)
    · rw [show id = ⟨tree.size⟩ from congrArg NodeId.mk same]
      exact topped.read_new inside lowered.nodup lowered.spans fit
  case fresh =>
    intro id member
    cases List.mem_singleton.mp member
    exact ⟨lowered.grows, by simp [topped.size]⟩
  case unheld =>
    intro id member
    cases List.mem_singleton.mp member
    rw [parent?, topped.new]
    rfl
  case taken =>
    intro id above below apart
    by_cases among : id ∈ shape.children.map Prod.snd
    · refine ⟨⟨tree.size⟩, ?_⟩
      rw [children, shape?, topped.new]
      exact among
    · have other : id.index ≠ tree.size := fun same =>
        apart (List.mem_singleton.mpr (congrArg NodeId.mk same))
      have size := topped.size
      obtain ⟨parent, holds⟩ := lowered.taken id above (by omega) among
      refine ⟨parent, ?_⟩
      rwa [children, shape?_of_bare (topped.bare parent (size_of_held holds)), ← children]
  case nodup => simp
  case spans =>
    rw [List.map_singleton, List.map_singleton, span?, topped.new]
    rfl

theorem Lowered.journal {base : Tree} {loose : List NodeId} {spans : List Span}
    (lowered : base.Lowered fits loose spans tree) : tree.journal = base.journal := by
  have journals := congrArg Tree.journal lowered.frame
  exact journals

namespace OfProgram

variable {α β : Type}

-- A step that starts with some loose nodes since a base, and ends with those it answers.
def Leaves (fits : Span → List Span → Prop) (base : Tree) (loose : List NodeId) (spans : List Span)
    (step : Build α) (ids : α → List NodeId) (left : List Span) : Prop :=
  ∀ tree : Tree, base.journal = none → base.Lowered fits loose spans tree →
    base.Lowered fits (ids (step tree).1) left (step tree).2

def Lowers (fits : Span → List Span → Prop) (step : Build α) (ids : α → List NodeId)
    (spans : List Span) : Prop :=
  ∀ base : Tree, Leaves fits base [] [] step ids spans

section

variable {base : Tree} {loose : List NodeId} {spans left : List Span}

theorem leaves_bind {step : Build α} {ids : α → List NodeId} {more : List Span}
    {next : α → Build β} {last : β → List NodeId} (first : Lowers fits step ids more)
    (second : ∀ value, Leaves fits base (loose ++ ids value) (spans ++ more) (next value) last left) :
    Leaves fits base loose spans (step >>= next) last left := by
  intro tree closed lowered
  have stepped := first tree tree (lowered.journal.trans closed) (lowered_refl tree)
  exact second (step tree).1 (step tree).2 closed (lowered.append stepped)

theorem leaves_pure {ids : α → List NodeId} {value : α} (all : ids value = loose) :
    Leaves fits base loose spans (pure value) ids spans := by
  intro tree _ lowered
  rw [show ids ((pure value : Build α) tree).1 = loose from all]
  exact lowered

theorem leaves_add {shape : Shape} {span : Span} (held : shape.children.map Prod.snd = loose)
    (fit : fits span spans) :
    Leaves fits base loose spans (add shape span) (fun id => [id]) [span] :=
  fun _ closed lowered => lowered.add (lowered.journal.trans closed) held fit

end

theorem textOf_lowers (span : Span) : Lowers fits (textOf span) (fun _ => []) [] :=
  fun _ _ _ lowered => lowered

theorem lowers_none {ids : α → List NodeId} {value : α} (none : ids value = []) :
    Lowers fits (pure value) ids [] :=
  fun _ => leaves_pure none

theorem lowers_some {step : Build NodeId} {spans : List Span}
    (lowers : Lowers fits step (fun id => [id]) spans) :
    Lowers fits (some <$> step) Option.toList spans := by
  intro base
  exact leaves_bind lowers fun id => leaves_pure rfl

theorem lowers_cons {step : Build NodeId} {rest : Build (List NodeId)} {span : Span}
    {spans : List Span} (first : Lowers fits step (fun id => [id]) [span])
    (others : Lowers fits rest id spans) :
    Lowers fits (do let value ← step; return value :: (← rest)) id (span :: spans) := by
  intro base
  exact leaves_bind first fun value => leaves_bind others fun values => leaves_pure rfl

end OfProgram

end Tree

end Codemod
