import Codemod.Proofs.Walk.Plan
import Codemod.Proofs.Walk.Visits

/-!
Walks that change nothing, and the listing of a subtree. The listing keeps the nodes still to come;
the walk keeps none, it looks through the children of a node again after every step and knows by its
marks how far it was. Where the nodes below a node are held once, both come to the same order: a
node, and after it one by one what is below its children. Main statement: a visitor that leaves
everything as it is is called for the nodes of the listing, in that order (`run_idle`).
-/

namespace Codemod

open Step

namespace Tree

variable {tree : Tree} {top : NodeId}

/-- The nodes of a list in pre-order with all that is below them: the first, then what is below its
children in slot order, then the others. -/
inductive Preorder (tree : Tree) : List NodeId → List NodeId → Prop where
  | nil : Preorder tree [] []
  | cons {id : NodeId} {rest below beside : List NodeId}
      (inner : Preorder tree ((tree.children id).map Prod.snd) below)
      (outer : Preorder tree rest beside) : Preorder tree (id :: rest) (id :: (below ++ beside))

theorem Preorder.append {first second before after : List NodeId}
    (front : tree.Preorder first before) (back : tree.Preorder second after) :
    tree.Preorder (first ++ second) (before ++ after) := by
  induction front with
  | nil => exact back
  | cons inner _ _ ih =>
      rw [List.cons_append, List.cons_append, List.append_assoc]
      exact .cons inner ih

theorem preorder_flatMap {ids : List NodeId} {below : NodeId → List NodeId}
    (each : ∀ id ∈ ids, tree.Preorder [id] (below id)) :
    tree.Preorder ids (ids.flatMap below) := by
  induction ids with
  | nil => exact .nil
  | cons id rest ih =>
      rw [List.flatMap_cons]
      exact (each id List.mem_cons_self).append
        (ih fun other member => each other (List.mem_cons_of_mem id member))

theorem Preorder.of_children {other : Tree} (same : ∀ id, other.children id = tree.children id)
    {ids list : List NodeId} (order : tree.Preorder ids list) : other.Preorder ids list := by
  induction order with
  | nil => exact .nil
  | cons _ _ inner outer =>
      rw [← same] at inner
      exact .cons inner outer

theorem Preorder.single {id : NodeId} {list : List NodeId} (order : tree.Preorder [id] list) :
    ∃ below, list = id :: below ∧ tree.Preorder ((tree.children id).map Prod.snd) below := by
  cases order with
  | @cons _ _ below _ inner outer =>
      cases outer
      exact ⟨below, by rw [List.append_nil], inner⟩

/-- What is listed to a depth that no way down exceeds is in pre-order. -/
theorem preorder_within (held : tree.HeldOnce) (rooted : tree.contains tree.root) {depth : Nat}
    {id : NodeId} {above : List NodeId} (path : tree.Path id above)
    (deep : tree.size ≤ depth + above.length) : tree.Preorder [id] (tree.within depth id) := by
  -- One step down costs one of the depth and makes the path longer by one, so the sum stays.
  induction depth generalizing id above with
  | zero =>
      obtain ⟨less, spare⟩ := path.depth_left held rooted deep
      cases spare
  | succ depth ih =>
      have keeps := (heldOnce_iff_tidy.mp held).keeps path.reaches
      have inner : tree.Preorder ((tree.children id).map Prod.snd)
          ((tree.held id).flatMap (tree.within depth)) := by
        rw [keeps.held_eq]
        apply preorder_flatMap
        intro child member
        obtain ⟨⟨slot, _⟩, holds, rfl⟩ := List.mem_map.mp member
        apply ih (.child path holds)
        rw [List.length_cons]
        omega
      have whole := Preorder.cons inner .nil
      rwa [List.append_nil] at whole

def rooted (tree : Tree) (top : NodeId) : Tree :=
  { tree with root := top }

theorem matches_rooted (tree : Tree) (top : NodeId) : (tree.rooted top).Matches tree :=
  ⟨rfl, fun _ => rfl, fun _ => rfl⟩

theorem Tidy.rooted (tidy : tree.Tidy top) : (tree.rooted top).Tidy top :=
  tidy.of_nodes rfl

theorem Tidy.preorder (tidy : tree.Tidy top) (inside : tree.contains top) :
    tree.Preorder [top] (tree.descendants top) := by
  have held : (tree.rooted top).HeldOnce := heldOnce_iff_tidy.mpr tidy.rooted
  have order : (tree.rooted top).Preorder [top] ((tree.rooted top).descendants top) :=
    preorder_within held inside .root (Nat.le_refl _)
  rw [(tree.matches_rooted top).descendants]
  exact order.of_children (tree.matches_rooted top).children

theorem Tidy.descendants_nodup (tidy : tree.Tidy top) : (tree.descendants top).Nodup := by
  have nodup := (Plan.fits_idle (tree.rooted top)).itinerary_nodup tidy.rooted
  rw [Plan.itinerary_idle tidy.rooted] at nodup
  rwa [(tree.matches_rooted top).descendants]

theorem Tidy.length_descendants (tidy : tree.Tidy top) (inside : tree.contains top) :
    (tree.descendants top).length ≤ tree.size := by
  apply length_le_size tidy.descendants_nodup
  intro id member
  exact tidy.contains_below inside (below_of_within member)

/-- The listing with the nodes still to come on a stack, for a number of turns: a node is taken off
the stack, and those it holds are put there. -/
def unwind (tree : Tree) : Nat → List NodeId → List NodeId
  | 0, _ => []
  | _ + 1, [] => []
  | turns + 1, id :: rest => id :: tree.unwind turns (tree.held id ++ rest)

theorem unwind_nil (turns : Nat) : tree.unwind turns [] = [] := by
  cases turns <;> rfl

/-- The nodes on top of the stack are listed with all that is below them before those under them. -/
theorem Preorder.unwind {ids list : List NodeId} (order : tree.Preorder ids list)
    (keeps : ∀ id ∈ list, tree.Keeps id) (turns : Nat) (rest : List NodeId) :
    tree.unwind (list.length + turns) (ids ++ rest) = list ++ tree.unwind turns rest := by
  induction order generalizing turns rest with
  | nil => simp
  | @cons id others below beside _ _ inner outer =>
      rw [List.forall_mem_cons, List.forall_mem_append] at keeps
      obtain ⟨here, underKeeps, besideKeeps⟩ := keeps
      have count : (id :: (below ++ beside)).length + turns
          = (below.length + (beside.length + turns)) + 1 := by
        rw [List.length_cons, List.length_append]
        omega
      rw [count, List.cons_append, Tree.unwind, here.held_eq, inner underKeeps,
        outer besideKeeps, List.cons_append, List.append_assoc]

theorem Tidy.unwind (tidy : tree.Tidy top) (inside : tree.contains top) {turns : Nat}
    (enough : tree.size ≤ turns) : tree.unwind turns [top] = tree.descendants top := by
  have short := tidy.length_descendants inside
  have keeps : ∀ id ∈ tree.descendants top, tree.Keeps id :=
    fun id member => tidy.keeps (below_of_within member)
  obtain ⟨spare, rfl⟩ := Nat.exists_eq_add_of_le (Nat.le_trans short enough)
  have listed := (tidy.preorder inside).unwind keeps spare []
  rwa [List.append_nil, unwind_nil, List.append_nil] at listed

end Tree

def Visiting.IdleAt {σ : Type} (visit : Visiting σ) (tree : Tree) (id : NodeId) : Prop :=
  ∀ state, (visit id tree state).1 = .ok .unchanged ∧ (visit id tree state).2.1 = tree

def Visiting.Idle {σ : Type} (visit : Visiting σ) (tree : Tree) : Prop :=
  ∀ id state, (visit id tree state).1 = .ok .unchanged ∧ (visit id tree state).2.1 = tree

def Visiting.along {σ : Type} (visit : Visiting σ) (tree : Tree) (list : List NodeId) (state : σ) :
    σ :=
  list.foldl (fun state id => (visit id tree state).2.2) state

theorem Visiting.along_noted {σ : Type} (visit : Visiting σ) (tree : Tree) (list : List NodeId)
    (both : σ × List (NodeId × Tree)) :
    (visit.noted.along tree list both).2 = both.2 ++ list.map fun id => (id, tree) := by
  induction list generalizing both with
  | nil => simp [along]
  | cons id rest ih =>
      rw [along, List.foldl_cons, ← along, ih]
      simp [noted]

namespace Walk

variable {σ : Type}

/-- The visitor was called for the nodes of a list, and they were marked; nothing else was done. -/
structure Passed (visit : Visiting σ) (list : List NodeId) (before after : Walk σ) : Prop where
  tree : after.tree = before.tree
  state : after.state = visit.along before.tree list before.state
  marks : ∀ id, after.visited.contains id ↔ before.visited.contains id ∨ id ∈ list
  changes : after.changes = before.changes
  errors : after.errors = before.errors
  cascadeLimited : after.cascadeLimited = before.cascadeLimited

theorem passed_refl (visit : Visiting σ) (walk : Walk σ) : Passed visit [] walk walk :=
  ⟨rfl, rfl, by simp, rfl, rfl, rfl⟩

theorem Passed.append {visit : Visiting σ} {before middle after : Walk σ}
    {front back : List NodeId} (first : Passed visit front before middle)
    (second : Passed visit back middle after) : Passed visit (front ++ back) before after where
  tree := second.tree.trans first.tree
  state := by
    rw [second.state, first.state, first.tree, Visiting.along, Visiting.along, Visiting.along,
      List.foldl_append]
  marks id := by
    rw [second.marks, first.marks, List.mem_append, or_assoc]
  changes := second.changes.trans first.changes
  errors := second.errors.trans first.errors
  cascadeLimited := second.cascadeLimited.trans first.cascadeLimited

theorem nextChild?_none {walk : Walk σ} {parent : NodeId}
    (met : ∀ child ∈ walk.tree.children parent, walk.visited.contains child.2) :
    walk.nextChild? parent = none := by
  rw [nextChild?, List.find?_eq_none]
  intro child member
  simp [met child member]

theorem nextChild?_of_split {walk : Walk σ} {parent : NodeId} {child : Slot × NodeId}
    {seen later : List (Slot × NodeId)} (children : walk.tree.children parent = seen ++ child :: later)
    (met : ∀ child ∈ seen, walk.visited.contains child.2)
    (fresh : ¬ walk.visited.contains child.2)
    (named : walk.tree.parent? child.2 = some ⟨parent, child.1⟩) :
    walk.nextChild? parent = some child := by
  have passed : seen.find? (fun child => !walk.visited.contains child.2
      && walk.tree.parent? child.2 == some ⟨parent, child.1⟩) = none := by
    rw [List.find?_eq_none]
    intro other member
    simp [met other member]
  rw [nextChild?, children, List.find?_append, passed, Option.none_or, List.find?_cons_of_pos]
  simp [fresh, named]

section

variable {visit : Visiting σ} {tree : Tree}

theorem visitor_idle {walk : Walk σ} (same : walk.tree = tree) {id : NodeId}
    (idle : visit.IdleAt tree id) :
    ∃ after, (visit.visitor id).run { walk with visited := walk.visited.insert id }
        = (.ok .unchanged, after)
      ∧ Passed visit [id] walk after := by
  subst same
  obtain ⟨answer, still⟩ := idle walk.state
  rw [Visiting.run_visitor, answer]
  refine ⟨_, rfl, still, rfl, ?_, rfl, rfl, rfl⟩
  intro other
  simp [or_comm]

/-- A node that is marked is visited, and then the walk goes down from it. -/
theorem visitNode_idle {walk : Walk σ} (same : walk.tree = tree) (link : Option Link) {id : NodeId}
    (idle : visit.IdleAt tree id) {below : List NodeId} {steps : Nat}
    (down : ∀ visited : Walk σ, Passed visit [id] walk visited →
      ∃ after, (descend visit.visitor steps id).run visited = (.ok (), after)
        ∧ Passed visit below visited after) :
    ∃ after, (visitNode visit.visitor (steps + 1) id link).run
        { walk with visited := walk.visited.insert id } = (.ok (), after)
      ∧ Passed visit (id :: below) walk after := by
  obtain ⟨visited, visits, first⟩ := visitor_idle same idle
  obtain ⟨after, goesDown, second⟩ := down visited first
  exact ⟨after, (visit_unchanged visits link steps).trans goesDown, first.append second⟩

/-- The children of a node from some place on: those before it were met, and nothing that is below
the others. -/
theorem descend_idle {ids list : List NodeId} (order : tree.Preorder ids list) {walk : Walk σ}
    {parent : NodeId} {seen ahead : List (Slot × NodeId)} {steps : Nat} (same : walk.tree = tree)
    (idle : ∀ id ∈ list, visit.IdleAt tree id) (keeps : ∀ id ∈ parent :: list, tree.Keeps id)
    (children : tree.children parent = seen ++ ahead) (names : ahead.map Prod.snd = ids)
    (met : ∀ child ∈ seen, walk.visited.contains child.2)
    (unmet : ∀ id ∈ list, ¬ walk.visited.contains id) (nodup : list.Nodup)
    (enough : 2 * list.length < steps) :
    ∃ after, (descend visit.visitor steps parent).run walk = (.ok (), after)
      ∧ Passed visit list walk after := by
  -- The order is that of the children ahead. Its first part is the subtree of the next child, and
  -- its second part that of the others, for which the walk looks through the children again.
  induction order generalizing walk parent seen ahead steps with
  | nil =>
      obtain ⟨less, rfl⟩ : ∃ less, steps = less + 1 := ⟨steps - 1, by omega⟩
      have none : walk.nextChild? parent = none := by
        apply nextChild?_none
        rw [same, children, List.map_eq_nil_iff.mp names, List.append_nil]
        exact met
      refine ⟨walk, ?_, passed_refl visit walk⟩
      rw [descend, run_bind_ok (run_get walk), none]
      rfl
  | @cons _ _ below beside _ _ innerIh outerIh =>
      obtain ⟨child, later, rfl, rfl, rfl⟩ := List.map_eq_cons_iff.mp names
      rw [List.forall_mem_cons, List.forall_mem_append] at unmet idle
      rw [List.length_cons, List.length_append] at enough
      rw [List.nodup_cons, List.mem_append, not_or, List.nodup_append] at nodup
      obtain ⟨fresh, underUnmet, besideUnmet⟩ := unmet
      obtain ⟨hereIdle, underIdle, besideIdle⟩ := idle
      obtain ⟨⟨notUnder, notBeside⟩, underNodup, besideNodup, disjoint⟩ := nodup
      obtain ⟨less, rfl⟩ : ∃ less, steps = less + 2 := ⟨steps - 2, by omega⟩
      have next : walk.nextChild? parent = some child := by
        apply nextChild?_of_split (same ▸ children) met fresh
        rw [same]
        exact (keeps parent List.mem_cons_self).named child (by simp [children])
      -- Nothing below the child was met, as the order has no node twice.
      obtain ⟨middle, visits, first⟩ : ∃ after, (visitNode visit.visitor (less + 1) child.2
          (some ⟨parent, child.1⟩)).run { walk with visited := walk.visited.insert child.2 }
            = (.ok (), after) ∧ Passed visit (child.2 :: below) walk after := by
        apply visitNode_idle same _ hereIdle
        intro visited passed
        refine innerIh (passed.tree.trans same) underIdle ?_ (List.nil_append _).symm rfl
          (List.forall_mem_nil _) ?_ underNodup (by omega)
        · intro id member
          exact keeps id (List.mem_cons_of_mem _ (List.mem_append_left beside member))
        · intro id member
          rw [passed.marks, List.mem_singleton, not_or]
          exact ⟨underUnmet id member, fun equal => notUnder (equal ▸ member)⟩
      obtain ⟨after, goesOn, second⟩ : ∃ after, (descend visit.visitor (less + 1) parent).run
          middle = (.ok (), after) ∧ Passed visit beside middle after := by
        refine outerIh (first.tree.trans same) besideIdle ?_ (children.trans (List.append_cons ..)) rfl
          ?_ ?_ besideNodup (by omega)
        · intro id member
          grind
        · intro other member
          rw [first.marks]
          grind
        · intro id member
          rw [first.marks, not_or]
          exact ⟨besideUnmet id member, by grind⟩
      refine ⟨after, ?_, first.append second⟩
      rw [descend, run_bind_ok (run_get walk), next]
      dsimp only
      rw [run_bind_ok (run_mark_fresh fresh), run_bind_ok visits]
      exact goesOn

/-- A walk in which the visitor is idle at all that is below the start. -/
theorem run_passed {start : NodeId} (tidy : tree.Tidy start) (inside : tree.contains start)
    (idle : ∀ id ∈ tree.descendants start, visit.IdleAt tree id) (state : σ) {steps : Nat}
    (enough : 2 * tree.size ≤ steps) :
    ∃ after, run visit.visitor steps tree state start = (.ok (), after)
      ∧ Passed visit (tree.descendants start) { tree, state } after := by
  have order := tidy.preorder inside
  have nodup := tidy.descendants_nodup
  have short := tidy.length_descendants inside
  -- All that is listed stands below the start, where each node is held once.
  have keeps : ∀ id ∈ tree.descendants start, tree.Keeps id :=
    fun id member => tidy.keeps (Tree.below_of_within member)
  obtain ⟨node, found⟩ := Tree.node?_of_contains inside
  obtain ⟨below, listed, under⟩ := order.single
  rw [listed] at keeps nodup short idle ⊢
  rw [List.length_cons] at short
  obtain ⟨less, rfl⟩ : ∃ less, steps = less + 1 := ⟨steps - 1, by omega⟩
  obtain ⟨fresh, nodup⟩ := List.nodup_cons.mp nodup
  obtain ⟨here, idle⟩ := List.forall_mem_cons.mp idle
  let outset : Walk σ := { tree, state }
  obtain ⟨after, visits, passed⟩ : ∃ after, (visitNode visit.visitor (less + 1) start
      node.parent).run { outset with visited := outset.visited.insert start } = (.ok (), after)
        ∧ Passed visit (start :: below) outset after := by
    apply visitNode_idle rfl _ here
    intro visited passed
    refine descend_idle under passed.tree idle keeps (List.nil_append _).symm rfl
      (List.forall_mem_nil _) ?_ nodup (by omega)
    intro id member
    rw [passed.marks, List.mem_singleton, not_or]
    exact ⟨by simp [outset], fun equal => fresh (equal ▸ member)⟩
  have marks := @run_mark_fresh _ start outset (by simp [outset])
  refine ⟨after, ?_, passed⟩
  rw [run, subtree, run_bind_ok (run_get _)]
  dsimp only
  rw [found]
  dsimp only
  rw [run_bind_ok marks]
  exact visits

/-- Where the nodes below a node are held once, a visitor that changes nothing is called for exactly
the nodes of the listing from there, in its order, each once and on the same tree. That order is the
pre-order of the subtree, and the listing by a stack comes to it too. The walk ends with no change,
no error and no cascade that was cut off. -/
theorem run_idle (idle : visit.Idle tree) {start : NodeId} (tidy : tree.Tidy start)
    (inside : tree.contains start) (state : σ) {steps : Nat} (enough : 2 * tree.size ≤ steps) :
    (∃ after, run visit.noted.visitor steps tree (state, []) start = (.ok (), after)
        ∧ run visit.visitor steps tree state start = (.ok (), after.plain)
        ∧ after.state.2 = (tree.descendants start).map (fun id => (id, tree))
        ∧ after.tree = tree ∧ after.changes = 0 ∧ after.errors = [] ∧ after.cascadeLimited = [])
      ∧ tree.Preorder [start] (tree.descendants start)
      ∧ (tree.descendants start).Nodup
      ∧ ∀ turns, tree.size ≤ turns → tree.unwind turns [start] = tree.descendants start := by
  have noted : ∀ id ∈ tree.descendants start, visit.noted.IdleAt tree id :=
    fun id _ both => idle id both.1
  obtain ⟨after, ran, passed⟩ := run_passed tidy inside noted (state, []) enough
  refine ⟨⟨after, ran, ?_, ?_, passed.tree, passed.changes, passed.errors, passed.cascadeLimited⟩,
    tidy.preorder inside, tidy.descendants_nodup, fun turns => tidy.unwind inside⟩
  · rw [run_noted, ran]
  · rw [passed.state]
    exact visit.along_noted tree _ (state, [])

end

-- A statement around a node in parentheses, an argument that no slot holds around the same node,
-- and a program that names a node which points elsewhere.
def shaded : Tree where
  source := ""
  root := ⟨0⟩
  nodes := #[{ shape := .program [⟨1⟩, ⟨2⟩] },
    { shape := .expressionStatement ⟨2⟩, parent := some ⟨⟨0⟩, .statement⟩ },
    { shape := .parenthesized ⟨3⟩, parent := some ⟨⟨1⟩, .expression⟩ },
    { shape := .raw "a", parent := some ⟨⟨2⟩, .expression⟩ },
    { shape := .argument none false ⟨3⟩ }]

-- Counts its calls and leaves everything as it is.
def counting : Visiting Nat :=
  fun _ tree count => (.ok .unchanged, tree, count + 1)

/-- The slots outside of the statement that have its nodes too make no difference. -/
theorem run_idle_shaded : shaded.Tidy ⟨1⟩
    ∧ ∃ after, run counting.noted.visitor 10 shaded (0, []) ⟨1⟩ = (.ok (), after)
      ∧ after.state.2.map Prod.fst = [⟨1⟩, ⟨2⟩, ⟨3⟩] ∧ after.changes = 0 := by
  have held : (shaded.rooted ⟨1⟩).HeldOnce := (Tree.validate_ok_iff rfl).mp (by decide +kernel)
  have tidy : shaded.Tidy ⟨1⟩ := (Tree.heldOnce_iff_tidy.mp held).of_nodes rfl
  have idle : counting.Idle shaded := fun _ _ => ⟨rfl, rfl⟩
  obtain ⟨⟨after, ran, _, calls, _, changes, _⟩, _⟩ :=
    run_idle idle tidy rfl 0 (show 2 * shaded.size ≤ 10 by decide)
  have order : shaded.descendants ⟨1⟩ = [⟨1⟩, ⟨2⟩, ⟨3⟩] := by decide +kernel
  refine ⟨tidy, after, ran, ?_, changes⟩
  rw [calls, order]
  rfl

end Walk

end Codemod
