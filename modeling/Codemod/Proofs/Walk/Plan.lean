import Codemod.Proofs.Tree.Tidy
import Codemod.Traversal
import Mathlib.Data.List.Flatten
import Mathlib.Data.List.Nodup

/-!
Walks whose course is known beforehand. A plan has a verdict for every node of a tree; from the plan
alone one reads what comes to stand in the place of each node, which verdicts are refused, and the
nodes that are visited, in order. On a tree in which every node is held once that order has no node
twice, and it keeps the source order of the nodes that were there before.
-/

namespace Codemod

/-- Why a node stays although its verdict says otherwise: a slot that must be filled gives nothing
up, and only a list takes a sequence. A root has no slot. -/
def Verdict.refusal? (verdict : Verdict) (slot : Option Slot) (id : NodeId) : Option TreeError :=
  match verdict, slot with
  | .deleted, none | .inserted _, none => some (.invalidRemoval id none)
  | .deleted, some slot =>
      if slot.arity = .required then some (.invalidRemoval id (some slot)) else none
  | .inserted _, some slot => if slot.arity = .list then none else some (.notAList slot)
  | .unchanged, _ | .replaced _, _ => none

/-- A node outside the tree that a sequence can bring in. -/
structure Tree.Spare (tree : Tree) (id : NodeId) : Prop where
  inside : tree.contains id
  loose : tree.parent? id = none
  childless : tree.children id = []
  rootless : id ≠ tree.root

theorem Tree.Spare.unreached {tree : Tree} {id : NodeId} (spare : tree.Spare id)
    (tidy : tree.Tidy tree.root) : ¬ tree.Reaches id := by
  intro reached
  cases reached with
  | self => exact spare.rootless rfl
  | child above held =>
      have loose := spare.loose
      rw [tidy.named above held] at loose
      cases loose

/-- What becomes of each node of a tree, told beforehand. -/
abbrev Plan := NodeId → Verdict

namespace Plan

def refusal? (plan : Plan) (tree : Tree) (id : NodeId) : Option TreeError :=
  (plan id).refusal? ((tree.parent? id).map Link.slot) id

def standing (plan : Plan) (tree : Tree) (id : NodeId) : List NodeId :=
  if (plan.refusal? tree id).isSome then [id]
  else
    match plan id with
    | .deleted => []
    | .inserted nodes => nodes
    | .unchanged | .replaced _ => [id]

-- The children of a node that stayed, after all of them were visited.
def settled (plan : Plan) (tree : Tree) (id : NodeId) : List (Slot × NodeId) :=
  (tree.children id).flatMap fun child => Shape.tagged child.1 (plan.standing tree child.2)

/-- Visits for one node of a sequence: a new node is visited, the node that was there before is left
for what is below it. -/
def share (id : NodeId) (below : List NodeId) (node : NodeId) : List NodeId :=
  if node = id then below else [node]

/-- The visits from a node down to the given depth: the node, then one after the other what stands
in its place. -/
def visits (plan : Plan) (tree : Tree) : Nat → NodeId → List NodeId
  | 0, _ => []
  | depth + 1, id => id :: (plan.standing tree id).flatMap
      (share id ((tree.children id).flatMap fun child => plan.visits tree depth child.2))

def visitsUnder (plan : Plan) (tree : Tree) (depth : Nat) (id : NodeId) : List NodeId :=
  (tree.children id).flatMap fun child => plan.visits tree depth child.2

theorem visits_succ (plan : Plan) (tree : Tree) (depth : Nat) (id : NodeId) :
    plan.visits tree (depth + 1) id
      = id :: (plan.standing tree id).flatMap (share id (plan.visitsUnder tree depth id)) := rfl

@[simp] theorem share_self (id : NodeId) (below : List NodeId) : share id below id = below :=
  if_pos rfl

theorem share_other {id node : NodeId} (other : node ≠ id) (below : List NodeId) :
    share id below node = [node] :=
  if_neg other

-- All visits from the root on. No path is longer than the arena.
def itinerary (plan : Plan) (tree : Tree) : List NodeId :=
  plan.visits tree tree.size tree.root

/-- Nodes of the tree that are not below a node that goes. -/
inductive Called (plan : Plan) (tree : Tree) : NodeId → Prop where
  | root : Called plan tree tree.root
  | child {parent id : NodeId} {slot : Slot} (above : Called plan tree parent)
      (stays : parent ∈ plan.standing tree parent) (held : (slot, id) ∈ tree.children parent) :
      Called plan tree id

/-- Nodes outside the tree are left alone. A sequence has no node twice, and apart from the node
whose place it takes it is made of spare nodes, which no other sequence has. -/
structure Fits (plan : Plan) (tree : Tree) : Prop where
  kept : ∀ id new, plan id ≠ .replaced new
  outside : ∀ {id}, ¬ tree.Reaches id → plan id = .unchanged
  nodup : ∀ {id nodes}, plan id = .inserted nodes → nodes.Nodup
  spare : ∀ {id nodes node}, plan id = .inserted nodes → node ∈ nodes → node ≠ id →
    tree.Spare node
  apart : ∀ {id other nodes others node}, plan id = .inserted nodes →
    plan other = .inserted others → node ∈ nodes → node ∈ others → id = other

variable {plan : Plan} {tree : Tree}

theorem Called.reaches {id : NodeId} (called : plan.Called tree id) : tree.Reaches id := by
  induction called with
  | root => exact .self
  | child _ _ held ih => exact .child ih held

/-- A node stays, goes, or makes way for a sequence. -/
theorem Fits.fate (fits : plan.Fits tree) (id : NodeId) :
    (plan.standing tree id = [id]
        ∧ (plan id = .unchanged ∨ ∃ error, plan.refusal? tree id = some error))
      ∨ (plan.standing tree id = [] ∧ plan id = .deleted ∧ plan.refusal? tree id = none)
      ∨ ∃ nodes, plan.standing tree id = nodes ∧ plan id = .inserted nodes
        ∧ plan.refusal? tree id = none := by
  unfold standing
  cases refused : plan.refusal? tree id with
  | some error => exact Or.inl ⟨if_pos rfl, Or.inr ⟨error, rfl⟩⟩
  | none =>
      cases told : plan id with
      | unchanged => exact Or.inl ⟨rfl, Or.inl rfl⟩
      | replaced new => exact absurd told (fits.kept id new)
      | deleted => exact Or.inr (Or.inl ⟨rfl, rfl, rfl⟩)
      | inserted nodes => exact Or.inr (Or.inr ⟨nodes, rfl, rfl, rfl⟩)

theorem refusal?_unchanged {id : NodeId} (told : plan id = .unchanged) :
    plan.refusal? tree id = none := by
  simp [refusal?, told, Verdict.refusal?]

theorem standing_unchanged {id : NodeId} (told : plan id = .unchanged) :
    plan.standing tree id = [id] := by
  simp [standing, refusal?_unchanged told, told]

theorem Fits.standing_nodup (fits : plan.Fits tree) (id : NodeId) :
    (plan.standing tree id).Nodup := by
  rcases fits.fate id with ⟨stands, _⟩ | ⟨stands, _⟩ | ⟨nodes, stands, told, _⟩
  · simp [stands]
  · simp [stands]
  · rw [stands]
    exact fits.nodup told

theorem Fits.mem_standing (fits : plan.Fits tree) {id node : NodeId}
    (member : node ∈ plan.standing tree id) (other : node ≠ id) :
    tree.Spare node ∧ ∃ nodes, plan id = .inserted nodes ∧ node ∈ nodes := by
  rcases fits.fate id with ⟨stands, _⟩ | ⟨stands, _⟩ | ⟨nodes, stands, told, _⟩
  · rw [stands] at member
    exact absurd (List.mem_singleton.mp member) other
  · rw [stands] at member
    cases member
  · rw [stands] at member
    exact ⟨fits.spare told member other, nodes, told, member⟩

section

variable (fits : plan.Fits tree) (tidy : tree.Tidy tree.root)

theorem mem_visits {depth : Nat} {id node : NodeId} :
    node ∈ plan.visits tree (depth + 1) id ↔ node = id
      ∨ id ∈ plan.standing tree id ∧ node ∈ plan.visitsUnder tree depth id
      ∨ node ∈ plan.standing tree id ∧ node ≠ id := by
  rw [visits_succ, List.mem_cons, List.mem_flatMap]
  constructor
  · rintro (rfl | ⟨place, member, visited⟩)
    · exact Or.inl rfl
    · by_cases here : place = id
      · subst here
        exact Or.inr (Or.inl ⟨member, by simpa using visited⟩)
      · rw [share_other here, List.mem_singleton] at visited
        exact Or.inr (Or.inr (visited ▸ ⟨member, here⟩))
  · rintro (rfl | ⟨member, visited⟩ | ⟨member, other⟩)
    · exact Or.inl rfl
    · exact Or.inr ⟨id, member, by simpa using visited⟩
    · exact Or.inr ⟨node, member, by simp [share_other other]⟩

theorem mem_visitsUnder {depth : Nat} {id node : NodeId} :
    node ∈ plan.visitsUnder tree depth id
      ↔ ∃ child ∈ tree.children id, node ∈ plan.visits tree depth child.2 :=
  List.mem_flatMap

def Brought (plan : Plan) (tree : Tree) (id node : NodeId) : Prop :=
  tree.Spare node
    ∧ ∃ holder nodes, tree.Below id holder ∧ plan holder = .inserted nodes ∧ node ∈ nodes

theorem Brought.up {id other node : NodeId} (brought : plan.Brought tree other node)
    (below : tree.Below id other) : plan.Brought tree id node := by
  obtain ⟨spare, holder, nodes, inner, told, among⟩ := brought
  exact ⟨spare, holder, nodes, below.trans inner, told, among⟩

include fits in
theorem Fits.below_or_brought {depth : Nat} {id node : NodeId}
    (visited : node ∈ plan.visits tree depth id) :
    tree.Below id node ∨ plan.Brought tree id node := by
  induction depth generalizing id with
  | zero => cases visited
  | succ depth ih =>
      rcases mem_visits.mp visited with rfl | ⟨_, visited⟩ | ⟨member, other⟩
      · exact Or.inl .self
      · obtain ⟨child, held, visited⟩ := mem_visitsUnder.mp visited
        have below : tree.Below id child.2 := .child .self held
        exact (ih visited).imp below.trans fun brought => brought.up below
      · obtain ⟨spare, nodes, told, among⟩ := fits.mem_standing member other
        exact Or.inr ⟨spare, id, nodes, .self, told, among⟩

include fits tidy in
theorem Fits.visits_disjoint {depth : Nat} {parent : NodeId} (reached : tree.Reaches parent)
    {child other : Slot × NodeId} (held : child ∈ tree.children parent)
    (also : other ∈ tree.children parent) (apart : child.2 ≠ other.2) :
    (plan.visits tree depth child.2).Disjoint (plan.visits tree depth other.2) := by
  intro node first second
  have childReached : tree.Reaches child.2 := .child reached held
  have otherReached : tree.Reaches other.2 := .child reached also
  rcases fits.below_or_brought first with below | ⟨spare, holder, nodes, below, told, among⟩ <;>
    rcases fits.below_or_brought second with under | ⟨loose, keeper, others, under, plans, within⟩
  · exact tidy.disjoint reached held also apart below under
  · exact loose.unreached tidy (childReached.trans below)
  · exact spare.unreached tidy (otherReached.trans under)
  · cases fits.apart told plans among within
    exact tidy.disjoint reached held also apart below under

include fits tidy in
/-- Neither the node nor what stands in its place is visited again below it. -/
theorem Fits.not_under {depth : Nat} {id node : NodeId} (reached : tree.Reaches id)
    (visited : node ∈ plan.visitsUnder tree depth id) :
    node ≠ id ∧ node ∉ plan.standing tree id := by
  obtain ⟨child, held, inner⟩ := mem_visitsUnder.mp visited
  have below : tree.Reaches child.2 := .child reached held
  have differs : node ≠ id := by
    rintro rfl
    rcases fits.below_or_brought inner with under | ⟨spare, _⟩
    · exact tidy.not_below_child reached held under
    · exact spare.unreached tidy reached
  refine ⟨differs, ?_⟩
  intro member
  obtain ⟨spare, nodes, told, among⟩ := fits.mem_standing member differs
  rcases fits.below_or_brought inner with under | ⟨_, holder, others, under, plans, within⟩
  · exact spare.unreached tidy (below.trans under)
  · cases fits.apart told plans among within
    exact tidy.not_below_child reached held under

include fits tidy in
theorem Fits.visits_nodup (depth : Nat) {id : NodeId} (reached : tree.Reaches id) :
    (plan.visits tree depth id).Nodup := by
  induction depth generalizing id with
  | zero => exact List.nodup_nil
  | succ depth ih =>
      -- The visits of two children share nothing, as no node is brought in for both.
      have under : (plan.visitsUnder tree depth id).Nodup := by
        apply List.nodup_flatMap.mpr
        refine ⟨fun child held => ih (.child reached held), ?_⟩
        have distinct := List.pairwise_map.mp (tidy.keeps reached).nodup
        exact distinct.imp_of_mem fun held also apart =>
          fits.visits_disjoint tidy reached held also apart
      have apart : ∀ node ∈ plan.visitsUnder tree depth id, node ≠ id
          ∧ node ∉ plan.standing tree id := fun node visited => fits.not_under tidy reached visited
      rw [visits_succ, List.nodup_cons]
      constructor
      · intro again
        obtain ⟨node, member, visited⟩ := List.mem_flatMap.mp again
        by_cases here : node = id
        · rw [here, share_self] at visited
          exact (apart id visited).1 rfl
        · rw [share_other here, List.mem_singleton] at visited
          exact here visited.symm
      · apply List.nodup_flatMap.mpr
        constructor
        · intro node _
          rw [share]
          split
          · exact under
          · simp
        · refine (fits.standing_nodup id).imp_of_mem ?_
          intro first second member also differ node visited again
          by_cases here : first = id <;> by_cases there : second = id
          · exact differ (here.trans there.symm)
          · rw [here, share_self] at visited
            rw [share_other there, List.mem_singleton] at again
            exact (apart node visited).2 (again ▸ also)
          · rw [share_other here, List.mem_singleton] at visited
            rw [there, share_self] at again
            exact (apart node again).2 (visited ▸ member)
          · rw [share_other here, List.mem_singleton] at visited
            rw [share_other there, List.mem_singleton] at again
            exact differ (visited.symm.trans again)

include fits tidy in
theorem Fits.itinerary_nodup : (plan.itinerary tree).Nodup :=
  fits.visits_nodup tidy _ .self

include fits tidy in
theorem Fits.itinerary_length (rooted : tree.contains tree.root) :
    (plan.itinerary tree).length ≤ tree.size := by
  apply Tree.length_le_size (fits.itinerary_nodup tidy)
  intro node visited
  rcases fits.below_or_brought visited with reached | ⟨spare, _⟩
  · exact tidy.contains_below rooted reached
  · exact spare.inside

end

section

variable (held : tree.HeldOnce) (rooted : tree.contains tree.root)

theorem visits_child {depth : Nat} {parent id : NodeId} {slot : Slot}
    (stays : parent ∈ plan.standing tree parent) (held : (slot, id) ∈ tree.children parent) :
    (plan.visits tree depth id).Sublist (plan.visits tree (depth + 1) parent) := by
  have among := (List.singleton_sublist.mpr held).flatMap fun child =>
    plan.visits tree depth child.2
  have place := (List.singleton_sublist.mpr stays).flatMap
    (share parent (plan.visitsUnder tree depth parent))
  rw [List.flatMap_singleton] at among
  rw [List.flatMap_singleton, share_self] at place
  rw [visits_succ]
  exact .cons _ (among.trans place)

include held rooted in
/-- The visits from a node that is called are part of the itinerary. -/
theorem Called.visits_sublist {id : NodeId} (called : plan.Called tree id) :
    ∃ above depth, tree.Path id above ∧ tree.size ≤ depth + 1 + above.length
      ∧ (plan.visits tree (depth + 1) id).Sublist (plan.itinerary tree) := by
  induction called with
  | root =>
      obtain ⟨depth, size⟩ := Tree.Path.root.depth_left held rooted (Nat.le_add_right tree.size 0)
      exact ⟨[], depth, .root, by simp [size], by rw [← size]; exact .refl _⟩
  | @child parent id slot _ stays member ih =>
      obtain ⟨above, deeper, path, deep, within⟩ := ih
      have longer : tree.size ≤ deeper + (parent :: above).length := by
        rw [List.length_cons]
        omega
      obtain ⟨depth, rfl⟩ := (path.child member).depth_left held rooted longer
      exact ⟨parent :: above, depth, .child path member, longer,
        (visits_child stays member).trans within⟩

theorem called_of_mem_visits {depth : Nat} {id node : NodeId} (called : plan.Called tree id)
    (visited : node ∈ plan.visits tree depth id) :
    plan.Called tree node ∨ ∃ holder, plan.Called tree holder ∧ node ∈ plan.standing tree holder := by
  induction depth generalizing id with
  | zero => cases visited
  | succ depth ih =>
      rcases mem_visits.mp visited with rfl | ⟨stays, visited⟩ | ⟨member, _⟩
      · exact Or.inl called
      · obtain ⟨child, under, visited⟩ := mem_visitsUnder.mp visited
        exact ih (.child called stays under) visited
      · exact Or.inr ⟨id, called, member⟩

include held rooted in
theorem mem_itinerary_iff {node : NodeId} : node ∈ plan.itinerary tree
    ↔ plan.Called tree node
      ∨ ∃ holder, plan.Called tree holder ∧ node ∈ plan.standing tree holder := by
  constructor
  · exact called_of_mem_visits .root
  · rintro (called | ⟨holder, called, member⟩)
    · obtain ⟨_, depth, _, _, within⟩ := called.visits_sublist held rooted
      exact within.subset (mem_visits.mpr (Or.inl rfl))
    · obtain ⟨_, depth, _, _, within⟩ := called.visits_sublist held rooted
      apply within.subset
      by_cases here : node = holder
      · exact mem_visits.mpr (Or.inl here)
      · exact mem_visits.mpr (Or.inr (Or.inr ⟨member, here⟩))

include held rooted in
/-- A sequence is visited in its order, after the node whose place it takes. -/
theorem Called.sequence_sublist {id : NodeId} (called : plan.Called tree id) :
    (id :: (plan.standing tree id).filter (· ≠ id)).Sublist (plan.itinerary tree) := by
  obtain ⟨_, depth, _, _, within⟩ := called.visits_sublist held rooted
  refine .trans (.cons_cons id ?_) within
  induction plan.standing tree id with
  | nil => exact .refl _
  | cons node rest ih =>
      rw [List.flatMap_cons, List.filter_cons]
      by_cases here : node = id
      · rw [if_neg (by simpa using here)]
        exact ih.trans (List.sublist_append_right _ _)
      · rw [if_pos (by simpa using here), share, if_neg here]
        exact ih.cons_cons node

end

section

variable (fits : plan.Fits tree) (tidy : tree.Tidy tree.root)

/-- Of nodes of which one alone counts, its share alone does. -/
theorem filter_shares {id : NodeId} {below standing : List NodeId} {counts : NodeId → Bool}
    (nodup : standing.Nodup) (others : ∀ node ∈ standing, node ≠ id → counts node = false) :
    ((standing.flatMap (share id below)).filter counts).Sublist (below.filter counts) := by
  induction standing with
  | nil => exact List.nil_sublist _
  | cons node rest ih =>
      obtain ⟨absent, nodup⟩ := List.nodup_cons.mp nodup
      have later := fun other member => others other (List.mem_cons_of_mem node member)
      rw [List.flatMap_cons, List.filter_append]
      by_cases here : node = id
      · have none : (rest.flatMap (share id below)).filter counts = [] := by
          rw [List.filter_eq_nil_iff]
          intro other visited
          obtain ⟨place, member, visited⟩ := List.mem_flatMap.mp visited
          have differs : place ≠ id := fun same => absent (here.trans same.symm ▸ member)
          rw [share_other differs, List.mem_singleton] at visited
          simp [visited, later place member differs]
        rw [none, here, share_self, List.append_nil]
      · rw [share_other here, List.filter_singleton, others node List.mem_cons_self here]
        exact ih nodup later

include fits tidy in
theorem Fits.visits_sublist_within (depth : Nat) {id : NodeId} (reached : tree.Reaches id) :
    ((plan.visits tree depth id).filter (· ∈ tree.descendants tree.root)).Sublist
      (tree.within depth id) := by
  induction depth generalizing id with
  | zero => exact .refl _
  | succ depth ih =>
      have under : ((plan.visitsUnder tree depth id).filter
          (· ∈ tree.descendants tree.root)).Sublist ((tree.held id).flatMap (tree.within depth)) := by
        rw [visitsUnder, List.filter_flatMap, (tidy.keeps reached).held_eq, List.flatMap_map]
        exact .flatMap_right _ fun child held => ih (.child reached held)
      have others : ∀ node ∈ plan.standing tree id, node ≠ id →
          decide (node ∈ tree.descendants tree.root) = false := by
        intro node member other
        have spare := (fits.mem_standing member other).1
        exact decide_eq_false fun among => spare.unreached tidy (Tree.below_of_within among)
      have shares := (filter_shares (fits.standing_nodup id) others).trans under
      rw [visits_succ, Tree.within, List.filter_cons]
      split
      · exact shares.cons_cons id
      · exact shares.cons id

end

def idle : Plan := fun _ => .unchanged

theorem fits_idle (tree : Tree) : idle.Fits tree :=
  ⟨nofun, fun _ => rfl, nofun, nofun, nofun⟩

theorem visits_idle (tidy : tree.Tidy tree.root) (depth : Nat) {id : NodeId}
    (reached : tree.Reaches id) : idle.visits tree depth id = tree.within depth id := by
  induction depth generalizing id with
  | zero => rfl
  | succ depth ih =>
      have stands : idle.standing tree id = [id] := standing_unchanged rfl
      rw [visits_succ, stands, List.flatMap_singleton, share_self, visitsUnder, Tree.within,
        (tidy.keeps reached).held_eq, List.flatMap_map]
      congr 1
      exact List.flatMap_congr fun child held => ih (.child reached held)

theorem itinerary_idle (tidy : tree.Tidy tree.root) :
    idle.itinerary tree = tree.descendants tree.root :=
  visits_idle tidy tree.size .self

end Plan

end Codemod
