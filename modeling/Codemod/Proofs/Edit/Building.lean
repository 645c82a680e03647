import Codemod.Proofs.Tree.Gather
import Codemod.Tree.Build

/-!
Edits on subtrees in which every node is held once. Naming, building, replacing and removing nodes
there always succeeds, and each of them is told by what it does to the subtree.
-/

namespace Codemod

open Step

namespace Tree

variable {tree before after : Tree} {old new id : NodeId}

theorem below_leaf (childless : tree.children id = []) {other : NodeId} (below : tree.Below id other) :
    other = id := by
  rcases below_iff.mp below with same | ⟨child, held, _⟩
  · exact same
  · rw [childless] at held
    cases held

theorem tidy_leaf (childless : tree.children id = []) : tree.Tidy id := by
  constructor
  · intro parent below
    cases below_leaf childless below
    constructor <;> simp [childless]
  · intro parent child below held
    cases below_leaf childless below
    rw [childless] at held
    cases held

theorem children_named {shape : Shape} (named : shape.nameText?.isSome) : shape.children = [] := by
  cases shape <;> first | rfl | cases named

theorem reworked_setData {former shape : Shape} (found : tree.shape? id = some former)
    (leaf : former.children = []) (named : shape.nameText?.isSome) (kind : shape.kind = former.kind) :
    tree.Reworked id ((tree.recordNode id).setData id shape).bump id := by
  have still := children_named named
  have counted : tree.revision < ((tree.recordNode id).setData id shape).bump.revision :=
    Nat.lt_succ_of_le (revision_respected.setData tree id former shape found leaf still)
  obtain ⟨node, present, _⟩ := Option.map_eq_some_iff.mp found
  have set : ∀ other, ((tree.recordNode id).setData id shape).bump.node? other
      = (tree.node? other).map fun node => { node with
        shape := if other = id then shape else node.shape
        touched := if other = id then true else node.touched } := by
    intro other
    rw [node?_bump, node?_setData, node?_recordNode]
  have reads : ((tree.recordNode id).setData id shape).bump.shape? id = some shape := by
    rw [shape?, set, present]
    simp
  have childless : ((tree.recordNode id).setData id shape).bump.children id = [] := by
    rw [children_of_shape? reads, still]
  constructor
  case source => exact (framed_recordNode tree id).source
  case root => exact (framed_recordNode tree id).root
  case size =>
    have sizes := (framed_ordered.trans (framed_recordNode tree id) (framed_setData _ id shape)).size
    exact Nat.le_of_eq sizes.symm
  case counts => exact Nat.le_of_lt counted
  case quiet => exact fun same => absurd same (Nat.ne_of_gt counted)
  case tidy => exact tidy_leaf childless
  case reach =>
    intro other below
    cases below_leaf childless below
    exact Or.inl ⟨.self, fun _ => rfl⟩
  case frame =>
    intro other _ outside
    have differs : other ≠ id := fun same => outside (same ▸ .self)
    rw [set]
    cases tree.node? other <;> simp [differs]
  case place =>
    rw [parent?, set, parent?]
    cases tree.node? id <;> rfl
  case settled => exact Or.inl rfl
  case kinds =>
    intro other _
    by_cases same : other = id
    · rw [same, kind?, reads, kind?, found, Option.map_some, Option.map_some, kind]
    · rw [kind?, shape?, set, kind?, shape?]
      cases tree.node? other <;> simp [same]
  case proper =>
    intro proper
    exact (proper.renamed named).of_nodes rfl rfl rfl

theorem run_setName {shape : Shape} (found : tree.shape? id = some shape)
    (named : shape.nameText?.isSome) (value : String) :
    ∃ after, (Edit.setName id value).run tree = (.ok (), after) ∧ tree.Reworked id after id := by
  have leaf := children_named named
  have childless : tree.children id = [] := by rw [children_of_shape? found, leaf]
  -- A name that is spelled as wanted is left as it is.
  have rewrites : ∀ renamed : Shape, renamed.nameText?.isSome → renamed.kind = shape.kind →
      ∃ after, ExceptT.run (m := StateM Tree) (ε := Fault) (do
          unless shape = renamed do
            modify fun tree => ((tree.recordNode id).setData id renamed).bump) tree = (.ok (), after)
        ∧ tree.Reworked id after id := by
    intro renamed spelled kind
    by_cases same : shape = renamed
    · exact ⟨tree, by rw [if_pos same]; rfl, (tidy_leaf childless).reworked⟩
    · exact ⟨_, by rw [if_neg same]; rfl, reworked_setData found leaf spelled kind⟩
  obtain ⟨node, present, rfl⟩ := Option.map_eq_some_iff.mp found
  rw [Edit.setName, run_bind_ok (Edit.run_node_some present)]
  cases spelling : node.shape with
  | name text =>
      rw [spelling] at rewrites
      exact rewrites (.name value) rfl rfl
  | «variable» text =>
      rw [spelling] at rewrites
      exact rewrites (.variable value) rfl rfl
  | _ =>
      rw [spelling] at named
      cases named

/-- The slot that held the old node was given another node, or none in its place. -/
structure Swapped (before : Tree) (link : Link) (old : NodeId) (after : Tree)
    (added : Option NodeId) : Prop where
  reworked : before.Reworked link.parent after link.parent
  children : ∀ {child}, child ∈ after.children link.parent ↔ child.1 = link.slot ∧ child.2 ∈ added
    ∨ child ∈ before.children link.parent ∧ child.2 ≠ old
  still : ∀ {id}, before.contains id → ¬ before.Below old id → id ≠ link.parent →
    after.node? id = before.node? id

theorem Gathered.swapped {middle : Tree} {link : Link} {shape : Shape} {former filled : Storage}
    {added : Option NodeId} (gathered : before.Gathered old middle added.toList)
    (tidy : before.Tidy link.parent) (held : (link.slot, old) ∈ before.children link.parent)
    (fresh : ∀ new ∈ added, ¬ before.contains new)
    (found : middle.shape? link.parent = some shape) (holds : shape.storage? link.slot = some former)
    (change : former.Change link.slot filled [old] added.toList) :
    before.Swapped link old
      (middle.refill link (shape.store link.slot filled) [old] added.toList).bump added where
  reworked := gathered.refill tidy held fresh found holds change
  children := by
    intro child
    rw [children_bump, gathered.filled_child tidy held fresh found holds change, Option.mem_toList]
    rfl
  still contained outside other := gathered.node?_refilled fresh contained outside other

theorem run_replaceAt_head {middle : Tree} (link : Link)
    (gathered : before.Gathered old middle [new]) (tidy : before.Tidy link.parent)
    (held : (link.slot, old) ∈ before.children link.parent) (fresh : ¬ before.contains new) :
    ∃ after, (Edit.replaceAt (some link) old new).run middle = (.ok (), after)
      ∧ before.Swapped link old after (some new) := by
  have present : before.contains old := tidy.contains_child .self held
  have differ : old ≠ new := fun same => fresh (same ▸ present)
  obtain ⟨shape, found, member⟩ := shape?_of_child held
  have read : middle.shape? link.parent = some shape := by
    rw [← found, shape?, gathered.frame (contains_of_child held) (tidy.not_below_child .self held),
      shape?]
  obtain ⟨storage, holds, among⟩ := Shape.storage?_of_child member
  obtain ⟨filled, replaced⟩ := Storage.replace?_of_mem among new
  have one : before.Gathered old middle (some new).toList := gathered
  have absent : ∀ id ∈ some new, ¬ before.contains id := by
    rintro id ⟨rfl⟩
    exact fresh
  have runs := Edit.run_replaceAt read holds differ replaced (grown gathered.size present)
    (gathered.inside new List.mem_cons_self)
  exact ⟨_, runs, one.swapped tidy held absent read holds (.replaced differ replaced)⟩

theorem run_replace_head {middle : Tree} (link : Link)
    (gathered : before.Gathered old middle [new]) (tidy : before.Tidy link.parent)
    (held : (link.slot, old) ∈ before.children link.parent) (fresh : ¬ before.contains new) :
    ∃ after, (Edit.replace old new).run middle = (.ok (), after)
      ∧ before.Swapped link old after (some new) := by
  obtain ⟨node, found, points⟩ := node?_of_parent? (gathered.place.trans (tidy.named .self held))
  rw [Edit.replace, run_bind_ok (Edit.run_node_some found), points]
  exact run_replaceAt_head link gathered tidy held fresh

theorem run_remove (link : Link) (tidy : tree.Tidy link.parent)
    (held : (link.slot, id) ∈ tree.children link.parent) (free : link.slot.arity ≠ .required) :
    ∃ after, (Edit.remove id).run tree = (.ok (), after) ∧ tree.Swapped link id after none := by
  obtain ⟨node, there, points⟩ := node?_of_parent? (tidy.named .self held)
  obtain ⟨shape, found, member⟩ := shape?_of_child held
  obtain ⟨storage, holds, among⟩ := Shape.storage?_of_child member
  obtain ⟨filled, removed⟩ := Storage.remove?_of_mem (Shape.storage?_free holds free) among
  have nothing : tree.Gathered id tree none.toList :=
    (tidy.sub (.child .self held)).gathered List.nodup_nil nofun nofun
  have absent : ∀ id ∈ (none : Option NodeId), ¬ tree.contains id := by
    rintro id ⟨⟩
  have runs := Edit.run_removeAt found holds free removed (contains_of_node? there)
  rw [Edit.remove, run_bind_ok (Edit.run_node_some there), points]
  exact ⟨_, runs, nothing.swapped tidy held absent found holds (.removed free removed)⟩

/-- Removing several children one after the other. -/
theorem run_forM_remove (link : Link) (free : link.slot.arity ≠ .required) {ids : List NodeId}
    (nodup : ids.Nodup) (tidy : tree.Tidy link.parent) (inside : tree.contains link.parent)
    (held : ∀ id ∈ ids, (link.slot, id) ∈ tree.children link.parent) :
    ∃ after, (ids.forM Edit.remove).run tree = (.ok (), after)
      ∧ tree.Reworked link.parent after link.parent := by
  induction ids generalizing tree with
  | nil => exact ⟨tree, rfl, tidy.reworked⟩
  | cons id rest ih =>
      obtain ⟨apart, nodupRest⟩ := List.nodup_cons.mp nodup
      obtain ⟨middle, removes, swapped⟩ := run_remove link tidy (held id List.mem_cons_self) free
      have remain : ∀ other ∈ rest, (link.slot, other) ∈ middle.children link.parent := by
        intro other member
        refine swapped.children.mpr (Or.inr ⟨held other (List.mem_cons_of_mem _ member), ?_⟩)
        rintro rfl
        exact apart member
      obtain ⟨after, removesRest, reworked⟩ :=
        ih nodupRest swapped.reworked.tidy (grown swapped.reworked.size inside) remain
      have unrolled : (id :: rest).forM Edit.remove
          = Edit.remove id >>= fun _ => rest.forM Edit.remove := rfl
      refine ⟨after, ?_, swapped.reworked.trans inside reworked⟩
      rw [unrolled, run_bind_ok removes, removesRest]

end Tree

/-- What building a node around others does beside that: they are moved, and no other node is. -/
structure Edit.Built (used : List NodeId) (before after : Tree) (new : NodeId) : Prop where
  fresh : ¬ before.contains new
  loose : after.parent? new = none
  size : before.size ≤ after.size
  counts : before.revision ≤ after.revision
  moves : ∀ id ∈ used, ∀ link, before.parent? id = some link → before.contains link.parent →
    before.revision < after.revision
  spares : ∀ id, before.contains id → id ∉ used → after.parent? id = before.parent? id

def Edit.Builds (used : List NodeId) (step : Edit NodeId) : Prop :=
  ∀ (before : Tree) (old : NodeId) (after : Tree) (rest : List NodeId), before.contains old →
    before.Gathered old after (used ++ rest) →
    ∃ new next, step.run after = (.ok new, next) ∧ before.Gathered old next (new :: rest)
      ∧ Edit.Built used after next new

namespace Edit

variable {used more : List NodeId} {step : Edit NodeId} {shape : Shape}

theorem Builds.perm (builds : Builds used step) (same : used.Perm more) : Builds more step := by
  intro before old after rest inside gathered
  obtain ⟨new, next, runs, built, facts⟩ :=
    builds _ _ _ rest inside (gathered.perm (same.symm.append_right rest))
  refine ⟨new, next, runs, built, facts.fresh, facts.loose, facts.size, facts.counts, ?_, ?_⟩
  · exact fun id member => facts.moves id (same.mem_iff.mpr member)
  · exact fun id contained unused => facts.spares id contained fun member =>
      unused (same.mem_iff.mp member)

theorem builds_alloc (shape : Shape) (holds : shape.children.map Prod.snd = used)
    (literal : shape.kind ≠ .literal) (verbatim : shape.kind ≠ .verbatim) :
    Builds used (alloc shape) := by
  subst holds
  intro before old after rest inside gathered
  have present := gathered.contains_taken rfl
  have beyond : ¬ after.contains ⟨after.size⟩ := after.not_contains_next
  have unheld : (⟨after.size⟩ : NodeId) ∉ shape.children.map Prod.snd := by
    intro member
    exact beyond (gathered.inside _ (List.mem_append_left _ member))
  refine ⟨⟨after.size⟩, after.added shape, run_alloc_inside present,
    gathered.added rfl inside literal verbatim, beyond, ?_, ?_, after.revision_added shape, ?_, ?_⟩
  · rw [Tree.parent?_added_other unheld, Tree.parent?, Tree.node?_next]
    rfl
  · rw [Tree.size_added]
    exact Nat.le_succ _
  · intro id member link named holder
    obtain ⟨child, among, rfl⟩ := List.mem_map.mp member
    have other : link.parent ≠ ⟨after.size⟩ := fun same => beyond (same ▸ holder)
    have early : child.2 ≠ ⟨after.size⟩ := fun same => beyond (same ▸ present child among)
    have still : (after.append { shape }).parent? child.2 = some link := by
      rw [Tree.parent?, Tree.node?_append, if_neg early, ← Tree.parent?, named]
    exact Tree.revision_adopt_lt _ among still other
  · exact fun id _ unused => Tree.parent?_added_other unused

theorem builds_bind {next : NodeId → Edit NodeId} (first : Builds used step)
    (second : ∀ id, Builds (id :: more) (next id)) : Builds (used ++ more) (step >>= next) := by
  intro before old after rest inside gathered
  rw [List.append_assoc] at gathered
  obtain ⟨middle, built, runs, gatheredMiddle, firstFacts⟩ := first _ _ _ _ inside gathered
  obtain ⟨new, ended, runsNext, gatheredNew, secondFacts⟩ := second middle _ _ _ _ inside gatheredMiddle
  have grown : ∀ {id}, after.contains id → built.contains id := Tree.grown firstFacts.size
  have other : ∀ {id}, after.contains id → id ≠ middle := fun contained same =>
    firstFacts.fresh (same ▸ contained)
  refine ⟨new, ended, ?_, gatheredNew, ?_, secondFacts.loose,
    Nat.le_trans firstFacts.size secondFacts.size,
    Nat.le_trans firstFacts.counts secondFacts.counts, ?_, ?_⟩
  · rw [run_bind_ok runs, runsNext]
  · exact fun contained => secondFacts.fresh (grown contained)
  · intro id member link named holder
    rcases List.mem_append.mp member with early | late
    · exact Nat.lt_of_lt_of_le (firstFacts.moves id early link named holder) secondFacts.counts
    · -- The first step leaves alone what the second one moves.
      have contained := Tree.contains_of_parent? named
      have unused : id ∉ used := by
        intro early
        obtain ⟨_, _, disjoint⟩ := List.nodup_append.mp gathered.nodup
        exact disjoint id early id (List.mem_append_left _ late) rfl
      have still := (firstFacts.spares id contained unused).trans named
      exact Nat.lt_of_le_of_lt firstFacts.counts
        (secondFacts.moves id (List.mem_cons_of_mem _ late) link still (grown holder))
  · intro id contained unused
    rw [List.mem_append, not_or] at unused
    rw [secondFacts.spares id (grown contained), firstFacts.spares id contained unused.1]
    rw [List.mem_cons, not_or]
    exact ⟨other contained, unused.2⟩

/-- Building a node around each of some nodes, and then one around all. -/
theorem builds_mapM {each : NodeId → Edit NodeId} (single : ∀ id, Builds [id] (each id))
    (ids : List NodeId) {more : List NodeId} {next : List NodeId → Edit NodeId}
    (last : ∀ built, Builds (built ++ more) (next built)) :
    Builds (ids ++ more) (ids.mapM each >>= next) := by
  induction ids generalizing more next with
  | nil => exact last []
  | cons id rest ih =>
      have unrolled : (id :: rest).mapM each >>= next
          = each id >>= fun first => rest.mapM each >>= fun others => next (first :: others) := by
        simp [List.mapM_cons]
      rw [unrolled]
      refine (builds_bind (single id) fun first => ?_ :
        Builds ([id] ++ (rest ++ more)) _)
      have around : Builds (rest ++ first :: more)
          (rest.mapM each >>= fun others => next (first :: others)) :=
        ih fun built => (last (first :: built)).perm List.perm_middle.symm
      exact around.perm List.perm_middle

-- The short ways to build nodes.

theorem builds_name (value : String) : Builds [] (name value) :=
  builds_alloc (.name value) rfl nofun nofun

theorem builds_argument (value : NodeId) : Builds [value] (argument value) :=
  builds_alloc (.argument none false value) rfl nofun nofun

theorem builds_argumentsOf (values : List NodeId) : Builds values (argumentsOf values) := by
  have lists : ∀ built : List NodeId, Builds (built ++ []) (argumentList built) := by
    intro built
    exact builds_alloc (.argumentList built) (by simp [Shape.children]) nofun nofun
  have builds := builds_mapM builds_argument values lists
  rwa [List.append_nil] at builds

theorem builds_newInstance (className : String) (arguments : Option NodeId) :
    Builds arguments.toList (newInstance className arguments) := by
  refine (builds_bind (builds_name className) fun spelled => ?_ : Builds ([] ++ arguments.toList) _)
  exact builds_alloc (.new spelled arguments) (by simp [Shape.children]) nofun nofun

theorem builds_methodCall (object : NodeId) (method : String) (arguments : NodeId) :
    Builds [object, arguments] (methodCall object method arguments) := by
  refine (builds_bind (builds_name method) fun spelled => ?_ : Builds ([] ++ [object, arguments]) _)
  have builds : Builds [object, spelled, arguments]
      (alloc (.methodCall object spelled arguments false)) := builds_alloc _ rfl nofun nofun
  exact builds.perm (.swap ..)

theorem builds_classConstFetch (className constant : String) :
    Builds [] (classConstFetch className constant) := by
  refine (builds_bind (builds_name className) fun spelled => ?_ : Builds ([] ++ []) _)
  refine (builds_bind (builds_name constant) fun other => ?_ : Builds ([] ++ [spelled]) _)
  have builds : Builds [spelled, other] (alloc (.classConstFetch spelled other)) :=
    builds_alloc _ rfl nofun nofun
  exact builds.perm (.swap ..)

theorem builds_arrayItem (value : NodeId) : Builds [value] (arrayItem none value) :=
  builds_alloc (.arrayItem none value false) rfl nofun nofun

end Edit

end Codemod
