import Codemod.Proofs.Edit.Seat
import Codemod.Proofs.Walk.Along
import Codemod.Proofs.Walk.Plan

/-!
Walks that follow a plan. At every moment of such a walk the slots are known from the nodes visited
so far: each child that was visited has made way for what the plan puts in its place, and the others
are still there. A walk with steps enough comes to its end after exactly the visits of the plan.
-/

namespace Codemod

open Step

/-! ### Slots on the way -/

namespace Plan

def shown (plan : Plan) (tree : Tree) (done : List NodeId) (children : List (Slot × NodeId)) :
    List (Slot × NodeId) :=
  children.flatMap fun child =>
    if child.2 ∈ done then Shape.tagged child.1 (plan.standing tree child.2) else [child]

variable {plan : Plan} {tree : Tree} {done : List NodeId}

@[simp] theorem shown_append (front back : List (Slot × NodeId)) :
    plan.shown tree done (front ++ back)
      = plan.shown tree done front ++ plan.shown tree done back :=
  List.flatMap_append

theorem shown_cons_later {child : Slot × NodeId} (later : child.2 ∉ done)
    (rest : List (Slot × NodeId)) :
    plan.shown tree done (child :: rest) = child :: plan.shown tree done rest := by
  simp [shown, later]

theorem shown_later {children : List (Slot × NodeId)} (later : ∀ child ∈ children, child.2 ∉ done) :
    plan.shown tree done children = children := by
  induction children with
  | nil => rfl
  | cons child rest ih =>
      rw [shown_cons_later (later child List.mem_cons_self),
        ih fun other member => later other (List.mem_cons_of_mem _ member)]

theorem shown_settled {id : NodeId} (all : ∀ child ∈ tree.children id, child.2 ∈ done) :
    plan.shown tree done (tree.children id) = plan.settled tree id := by
  apply List.flatMap_congr
  intro child member
  rw [if_pos (all child member)]

/-- A visit shows only where the node gives way. -/
theorem shown_still {id : NodeId} {children : List (Slot × NodeId)}
    (still : ∀ child ∈ children, child.2 = id → plan.standing tree id = [id]) :
    plan.shown tree (done ++ [id]) children = plan.shown tree done children := by
  apply List.flatMap_congr
  rintro ⟨slot, node⟩ member
  by_cases here : node = id
  · subst here
    simp [still _ member rfl, Shape.tagged]
  · simp [here]

theorem shown_elsewhere {id : NodeId} {children : List (Slot × NodeId)}
    (elsewhere : id ∉ children.map Prod.snd) :
    plan.shown tree (done ++ [id]) children = plan.shown tree done children := by
  apply shown_still
  rintro child member rfl
  exact absurd (List.mem_map_of_mem member) elsewhere

theorem mem_shown {slot : Slot} {id : NodeId} {children : List (Slot × NodeId)}
    (member : (slot, id) ∈ plan.shown tree done children) :
    (slot, id) ∈ children ∨ ∃ child ∈ children, child.2 ∈ done
      ∧ id ∈ plan.standing tree child.2 := by
  obtain ⟨child, among, shows⟩ := List.mem_flatMap.mp member
  by_cases early : child.2 ∈ done
  · rw [if_pos early] at shows
    exact Or.inr ⟨child, among, early, (Shape.mem_tagged.mp shows).2⟩
  · rw [if_neg early, List.mem_singleton] at shows
    exact Or.inl (shows ▸ among)

/-! ### Verdicts that are refused -/

theorem run_removeAt_refused {id : NodeId} {error : TreeError} (told : plan id = .deleted)
    (refused : plan.refusal? tree id = some error) (other : Tree) :
    (Edit.removeAt (tree.parent? id) id).run other = (.error (.rejected error), other) := by
  rw [refusal?, told] at refused
  cases named : tree.parent? id with
  | none =>
      rw [named] at refused
      cases refused
      rfl
  | some link =>
      simp only [named, Option.map_some, Verdict.refusal?] at refused
      split at refused
      · next required =>
          cases refused
          rw [Edit.removeAt]
          dsimp only
          rw [if_pos required]
          rfl
      · cases refused

theorem run_spliceAt_refused {id : NodeId} {nodes : List NodeId} {error : TreeError}
    (told : plan id = .inserted nodes) (refused : plan.refusal? tree id = some error)
    (other : Tree) :
    (Edit.spliceAt (tree.parent? id) id nodes).run other = (.error (.rejected error), other) := by
  rw [refusal?, told] at refused
  cases named : tree.parent? id with
  | none =>
      rw [named] at refused
      cases refused
      rfl
  | some link =>
      simp only [named, Option.map_some, Verdict.refusal?] at refused
      split at refused
      · cases refused
      · next single =>
          cases refused
          rw [Edit.spliceAt]
          dsimp only
          rw [if_pos single]
          rfl

/-- A verdict that is carried out is about a node in a slot that allows it. -/
theorem accepted_deleted {id : NodeId} (told : plan id = .deleted)
    (accepted : plan.refusal? tree id = none) :
    ∃ link, tree.parent? id = some link ∧ link.slot.arity ≠ .required := by
  rw [refusal?, told] at accepted
  cases named : tree.parent? id with
  | none => simp [named, Verdict.refusal?] at accepted
  | some link => exact ⟨link, rfl, by simpa [named, Verdict.refusal?] using accepted⟩

theorem accepted_inserted {id : NodeId} {nodes : List NodeId} (told : plan id = .inserted nodes)
    (accepted : plan.refusal? tree id = none) :
    ∃ link, tree.parent? id = some link ∧ link.slot.arity = .list := by
  rw [refusal?, told] at accepted
  cases named : tree.parent? id with
  | none => simp [named, Verdict.refusal?] at accepted
  | some link => exact ⟨link, rfl, by simpa [named, Verdict.refusal?] using accepted⟩

end Plan

/-! ### Walks on the way -/

namespace Walk

variable {σ : Type} {plan : Plan} {tree : Tree} {visitor : Visitor σ}
variable {Noted : List NodeId → Tree → σ → Prop}

/-- The visitor answers as planned and leaves slots and back-references alone. What it makes of the
visits is noted in a way that the edits of the walk do not touch. -/
structure Follows (plan : Plan) (tree : Tree) (visitor : Visitor σ)
    (Noted : List NodeId → Tree → σ → Prop) : Prop where
  visit : ∀ {done id later} {walk : Walk σ}, plan.itinerary tree = done ++ id :: later →
    Noted done walk.tree walk.state →
    ∃ after state, (visitor id).run walk = (.ok (plan id), { walk with tree := after, state })
      ∧ walk.tree.Matches after ∧ Noted (done ++ [id]) after state
  edit : ∀ {id done before after state}, plan id ≠ .unchanged → Noted done before state →
    Noted done after state

/-- The walk after some visits. Slots that the tree did not have from the start are as they were. -/
structure Shown (plan : Plan) (tree : Tree) (Noted : List NodeId → Tree → σ → Prop)
    (done : List NodeId) (walk : Walk σ) : Prop where
  size : walk.tree.size = tree.size
  children : ∀ {id}, tree.Reaches id →
    walk.tree.children id = plan.shown tree done (tree.children id)
  outside : ∀ {id}, ¬ tree.Reaches id → walk.tree.children id = tree.children id
  links : ∀ {id}, tree.Reaches id → id ∉ done → walk.tree.parent? id = tree.parent? id
  visited : ∀ id, walk.visited.contains id = true ↔ id ∈ done
  errors : walk.errors = done.filterMap fun id => (plan.refusal? tree id).map fun error => (id, error)
  limited : walk.cascadeLimited = []
  noted : Noted done walk.tree walk.state

/-- A tree whose root is held by no slot, and a plan that fits it. -/
structure Planned (plan : Plan) (tree : Tree) : Prop where
  held : tree.HeldOnce
  rooted : tree.contains tree.root
  loose : tree.parent? tree.root = none
  fits : plan.Fits tree

namespace Planned

variable (planned : Planned plan tree)
include planned

theorem tidy : tree.Tidy tree.root :=
  Tree.heldOnce_iff_tidy.mp planned.held

theorem order_nodup : (plan.itinerary tree).Nodup :=
  planned.fits.itinerary_nodup planned.tidy

theorem holder {id : NodeId} (reached : tree.Reaches id) {link : Link}
    (named : tree.parent? id = some link) :
    tree.Reaches link.parent ∧ (link.slot, id) ∈ tree.children link.parent := by
  cases reached with
  | self =>
      rw [planned.loose] at named
      cases named
  | child above held =>
      rw [planned.tidy.named above held] at named
      cases named
      exact ⟨above, held⟩

/-- A child stands at one place of the list. -/
theorem elsewhere {parent : NodeId} (reached : tree.Reaches parent) {child : Slot × NodeId}
    {front back : List (Slot × NodeId)} (around : tree.children parent = front ++ child :: back) :
    child.2 ∉ front.map Prod.snd ∧ child.2 ∉ back.map Prod.snd := by
  have nodup := (planned.tidy.keeps reached).nodup
  rw [around, List.map_append, List.map_cons, List.nodup_middle, List.nodup_cons, List.mem_append,
    not_or] at nodup
  exact nodup.1

/-- A node of the tree is not among what came in the places of others. -/
theorem not_mem_shown {id : NodeId} (reached : tree.Reaches id) {children : List (Slot × NodeId)}
    (elsewhere : id ∉ children.map Prod.snd) (slot : Slot) (done : List NodeId) :
    (slot, id) ∉ plan.shown tree done children := by
  intro member
  rcases Plan.mem_shown member with stays | ⟨child, among, _, stands⟩
  · exact elsewhere (List.mem_map_of_mem stays)
  · have other : id ≠ child.2 := fun same => elsewhere (same ▸ List.mem_map_of_mem among)
    exact (planned.fits.mem_standing stands other).1.unreached planned.tidy reached

end Planned

section

variable {done later : List NodeId} {id : NodeId} {walk : Walk σ}

theorem not_mem_done (planned : Planned plan tree) (order : plan.itinerary tree = done ++ id :: later) :
    id ∉ done := by
  have nodup := planned.order_nodup
  rw [order] at nodup
  intro early
  exact (List.nodup_append.mp nodup).2.2 id early id List.mem_cons_self rfl

theorem Shown.visited_insert (shown : Shown plan tree Noted done walk) (id other : NodeId) :
    (walk.visited.insert id).contains other = true ↔ other ∈ done ++ [id] := by
  rw [NodeSet.contains_insert, Bool.or_eq_true, decide_eq_true_iff, shown.visited, List.mem_append,
    List.mem_singleton, or_comm]

/-- The visit of a node that stays. -/
theorem Shown.stay (shown : Shown plan tree Noted done walk) {after : Tree} {state : σ}
    (same : walk.tree.Matches after) (noted : Noted (done ++ [id]) after state)
    (still : tree.Reaches id → plan.standing tree id = [id]) {errors : List (NodeId × TreeError)}
    (reports : errors = walk.errors ++ ((plan.refusal? tree id).map fun error => (id, error)).toList) :
    Shown plan tree Noted (done ++ [id])
      { walk with tree := after, state, visited := walk.visited.insert id, errors } where
  size := same.size.trans shown.size
  children := by
    intro other reached
    rw [same.children, shown.children reached, Plan.shown_still]
    rintro child member rfl
    exact still (.child reached member)
  outside outer := (same.children _).trans (shown.outside outer)
  links := by
    intro other reached undone
    rw [same.parent?]
    exact shown.links reached fun early => undone (List.mem_append_left _ early)
  visited := shown.visited_insert id
  errors := by
    rw [reports, shown.errors, List.filterMap_append]
    cases refused : plan.refusal? tree id <;> simp [refused]
  limited := shown.limited
  noted := noted

/-- Before its visit a node is where its link says. -/
theorem Shown.held (planned : Planned plan tree) (shown : Shown plan tree Noted done walk)
    (order : plan.itinerary tree = done ++ id :: later) (reached : tree.Reaches id) {link : Link}
    (named : tree.parent? id = some link) :
    (link.slot, id) ∈ walk.tree.children link.parent := by
  obtain ⟨above, held⟩ := planned.holder reached named
  obtain ⟨front, back, around⟩ := List.append_of_mem held
  rw [shown.children above, around, Plan.shown_append,
    Plan.shown_cons_later (not_mem_done planned order)]
  simp

/-- The list a node makes way in shows what stands in its place. -/
theorem Shown.seat (planned : Planned plan tree) (shown : Shown plan tree Noted done walk)
    (order : plan.itinerary tree = done ++ id :: later) (reached : tree.Reaches id) {link : Link}
    (named : tree.parent? id = some link) {middle after : Tree} (same : walk.tree.Matches middle)
    (reseated : middle.Reseated link id (plan.standing tree id) after) :
    after.children link.parent = plan.shown tree (done ++ [id]) (tree.children link.parent) := by
  obtain ⟨above, held⟩ := planned.holder reached named
  obtain ⟨front, back, around⟩ := List.append_of_mem held
  obtain ⟨before, behind⟩ := planned.elsewhere above around
  have shows : middle.children link.parent = plan.shown tree done front
      ++ (link.slot, id) :: plan.shown tree done back := by
    rw [same.children, shown.children above, around, Plan.shown_append,
      Plan.shown_cons_later (not_mem_done planned order)]
  have seated := reseated.seat shows (planned.not_mem_shown reached before link.slot done)
    (planned.not_mem_shown reached behind link.slot done)
  rw [seated, around, Plan.shown_append, Plan.shown_elsewhere before, List.append_assoc,
    ← Plan.shown_elsewhere behind]
  simp [Plan.shown]

/-- The visit of a node that makes way for what stands in its place. -/
theorem Shown.reseat (planned : Planned plan tree) (shown : Shown plan tree Noted done walk)
    (order : plan.itinerary tree = done ++ id :: later) (reached : tree.Reaches id) {link : Link}
    (named : tree.parent? id = some link) {middle after : Tree} {state : σ}
    (same : walk.tree.Matches middle)
    (reseated : middle.Reseated link id (plan.standing tree id) after)
    (accepted : plan.refusal? tree id = none) (noted : Noted (done ++ [id]) after state) :
    Shown plan tree Noted (done ++ [id])
      { walk with
        tree := after, state, visited := walk.visited.insert id, changes := walk.changes + 1 } := by
  obtain ⟨above, held⟩ := planned.holder reached named
  constructor
  case size => exact reseated.framed.size.trans (same.size.trans shown.size)
  case children =>
    intro other otherReached
    by_cases here : other = link.parent
    · exact here ▸ shown.seat planned order reached named same reseated
    · rw [reseated.others here, same.children, shown.children otherReached, Plan.shown_still]
      rintro child member rfl
      exact absurd (planned.tidy.holder_eq otherReached above member held rfl).1 here
  case outside =>
    intro other outer
    have here : other ≠ link.parent := fun same => outer (same ▸ above)
    rw [reseated.others here, same.children, shown.outside outer]
  case links =>
    intro other otherReached undone
    rw [List.mem_append, List.mem_singleton, not_or] at undone
    have unmoved : other ∉ plan.standing tree id := fun member =>
      (planned.fits.mem_standing member undone.2).1.unreached planned.tidy otherReached
    rw [reseated.links undone.2 unmoved, same.parent?, shown.links otherReached undone.1]
  case visited => exact shown.visited_insert id
  case errors =>
    rw [List.filterMap_append, ← shown.errors]
    simp [accepted]
  case limited => exact shown.limited
  case noted => exact noted

end

/-! ### One place -/

def marked (walk : Walk σ) (id : NodeId) : Walk σ :=
  { walk with visited := walk.visited.insert id }

section

variable (planned : Planned plan tree) (follows : Follows plan tree visitor Noted)
variable {done later : List NodeId} {id : NodeId} {walk : Walk σ}

theorem Shown.run_mark (shown : Shown plan tree Noted done walk) (absent : id ∉ done) :
    (mark id).run walk = (.ok true, walk.marked id) := by
  rw [Walk.run_mark, if_neg fun early => absent ((shown.visited id).mp early)]
  rfl

inductive Answers (plan : Plan) (tree : Tree) (id : NodeId) : Settled → Prop where
  | stays (stands : plan.standing tree id = [id]) : Answers plan tree id (.descend id)
  | goes (stands : plan.standing tree id = []) : Answers plan tree id .done
  | yields : Answers plan tree id (.inserted id (plan.standing tree id))

/-- An edit that is refused before it touches the tree. -/
theorem Shown.refused (shown : Shown plan tree Noted done walk) {middle : Tree} {state : σ}
    (same : walk.tree.Matches middle) (noted : Noted (done ++ [id]) middle state)
    (stands : plan.standing tree id = [id]) {error : TreeError}
    (refused : plan.refusal? tree id = some error) {edit : Edit Unit}
    (ran : edit.run middle = (.error (.rejected error), middle)) :
    ∃ after, (carryOut id edit).run { walk.marked id with tree := middle, state } = (.ok false, after)
      ∧ Shown plan tree Noted (done ++ [id]) after := by
  have reports : walk.errors ++ [(id, error)]
      = walk.errors ++ ((plan.refusal? tree id).map fun error => (id, error)).toList := by
    simp [refused]
  refine ⟨_, ?_, shown.stay same noted (fun _ => stands) reports⟩
  rw [run_carryOut, ran]
  rfl

include planned follows in
/-- An edit that puts in place of the node what the plan says. -/
theorem Shown.carried (order : plan.itinerary tree = done ++ id :: later) (reached : tree.Reaches id)
    (shown : Shown plan tree Noted done walk) {link : Link} (named : tree.parent? id = some link)
    {middle after : Tree} {state : σ} (same : walk.tree.Matches middle)
    (noted : Noted (done ++ [id]) middle state) (moves : plan id ≠ .unchanged)
    (accepted : plan.refusal? tree id = none) {edit : Edit Unit}
    (ran : edit.run middle = (.ok (), after))
    (reseated : middle.Reseated link id (plan.standing tree id) after) :
    ∃ next, (carryOut id edit).run { walk.marked id with tree := middle, state } = (.ok true, next)
      ∧ Shown plan tree Noted (done ++ [id]) next := by
  refine ⟨_, ?_, shown.reseat planned order reached named same reseated accepted
    (follows.edit moves noted)⟩
  rw [run_carryOut, ran]
  rfl

include planned follows in
theorem settle_shown (order : plan.itinerary tree = done ++ id :: later) (reached : tree.Reaches id)
    (shown : Shown plan tree Noted done walk) :
    ∃ answer after, (settle visitor (tree.parent? id) cascadeLimit id).run (walk.marked id)
        = (.ok answer, after)
      ∧ Answers plan tree id answer ∧ Shown plan tree Noted (done ++ [id]) after := by
  have start : Noted done (walk.marked id).tree (walk.marked id).state := shown.noted
  obtain ⟨middle, state, visits, same, noted⟩ := follows.visit order start
  replace same : walk.tree.Matches middle := same
  have inside : middle.contains id := by
    rw [same.contains, Tree.contains_iff]
    exact shown.size ▸ Tree.contains_iff.mp (planned.tidy.contains_below planned.rooted reached)
  have held : ∀ {link}, tree.parent? id = some link →
      (link.slot, id) ∈ middle.children link.parent := fun named =>
    (same.children _).symm ▸ shown.held planned order reached named
  rw [cascadeLimit, settle, run_bind_ok visits]
  rcases planned.fits.fate id with
    ⟨stands, unchanged | ⟨error, refused⟩⟩ | ⟨stands, told, accepted⟩ | ⟨nodes, stands, told, accepted⟩
  · -- The plan asks nothing of the node, so the walk goes on below it.
    rw [unchanged]
    refine ⟨_, _, rfl, .stays stands, shown.stay same noted (fun _ => stands) ?_⟩
    simp [Plan.refusal?_unchanged unchanged, marked]
  · -- An edit that is refused leaves the tree alone, so that the node still stands.
    cases told : plan id with
    | unchanged =>
        rw [Plan.refusal?_unchanged told] at refused
        cases refused
    | replaced new => exact absurd told (planned.fits.kept id new)
    | deleted =>
        obtain ⟨after, carries, stays⟩ := shown.refused same noted stands refused
          (Plan.run_removeAt_refused told refused middle)
        dsimp only
        rw [run_bind_ok carries]
        exact ⟨_, _, rfl, .stays stands, stays⟩
    | inserted nodes =>
        obtain ⟨after, carries, stays⟩ := shown.refused same noted stands refused
          (Plan.run_spliceAt_refused told refused middle)
        dsimp only
        rw [run_bind_ok carries]
        exact ⟨_, _, rfl, .stays stands, stays⟩
  · -- What is deleted leaves its slot, and nothing below it is visited.
    obtain ⟨link, named, free⟩ := Plan.accepted_deleted told accepted
    obtain ⟨after, removes, reseated⟩ := Edit.removeAt_reseats (held named) inside free
    have moves : plan id ≠ .unchanged := by simp [told]
    obtain ⟨last, carries, reaches⟩ := shown.carried planned follows order reached named same noted
      moves accepted (named ▸ removes) (stands ▸ reseated)
    rw [told]
    dsimp only
    rw [run_bind_ok carries]
    exact ⟨_, _, rfl, .goes stands, reaches⟩
  · obtain ⟨link, named, list⟩ := Plan.accepted_inserted told accepted
    -- What is put in was in the arena from the start, and the walk has kept its size.
    have entering : ∀ node ∈ nodes, middle.contains node := by
      intro node member
      by_cases here : node = id
      · exact here ▸ inside
      · rw [same.contains, Tree.contains_iff]
        exact shown.size ▸ Tree.contains_iff.mp (planned.fits.spare told member here).inside
    obtain ⟨after, splices, reseated⟩ :=
      Edit.spliceAt_reseats (held named) inside list entering
    have moves : plan id ≠ .unchanged := by simp [told]
    obtain ⟨last, carries, reaches⟩ := shown.carried planned follows order reached named same noted
      moves accepted (named ▸ splices) (stands ▸ reseated)
    rw [told]
    dsimp only
    rw [run_bind_ok carries]
    exact ⟨_, _, rfl, stands ▸ .yields, reaches⟩

end

/-! ### What is below a place -/

section

variable (planned : Planned plan tree) (follows : Follows plan tree visitor Noted)

-- From the walk with the given visits behind it, the step makes the further ones.
def Makes (plan : Plan) (tree : Tree) (Noted : List NodeId → Tree → σ → Prop) (visits : List NodeId)
    (done : List NodeId) (result : Except Stop Unit × Walk σ) : Prop :=
  ∃ after, result = (.ok (), after) ∧ Shown plan tree Noted (done ++ visits) after

theorem Makes.bind {first second done : List NodeId} {step next : Walking σ Unit} {walk : Walk σ}
    (makes : Makes plan tree Noted first done (step.run walk))
    (further : ∀ {after}, Shown plan tree Noted (done ++ first) after →
      Makes plan tree Noted second (done ++ first) (next.run after)) :
    Makes plan tree Noted (first ++ second) done ((step >>= fun _ => next).run walk) := by
  obtain ⟨middle, ran, shown⟩ := makes
  rw [run_bind_ok ran, Makes, ← List.append_assoc]
  exact further shown

theorem Makes.cons {id : NodeId} {visits done : List NodeId} {result : Except Stop Unit × Walk σ}
    (makes : Makes plan tree Noted visits (done ++ [id]) result) :
    Makes plan tree Noted (id :: visits) done result := by
  obtain ⟨after, ran, shown⟩ := makes
  exact ⟨after, ran, by simpa using shown⟩

include planned follows in
theorem visitNode_spare {done later : List NodeId} {node : NodeId} {walk : Walk σ}
    (order : plan.itinerary tree = done ++ node :: later) (spare : tree.Spare node)
    (shown : Shown plan tree Noted done walk) (link : Option Link) (steps : Nat) :
    Makes plan tree Noted [node] done
      ((visitNode visitor (steps + 2) node link).run (walk.marked node)) := by
  have outer := spare.unreached planned.tidy
  have unchanged := planned.fits.outside outer
  have start : Noted done (walk.marked node).tree (walk.marked node).state := shown.noted
  obtain ⟨after, state, visits, same, noted⟩ := follows.visit order start
  rw [unchanged] at visits
  have settles : (settle visitor link cascadeLimit node).run (walk.marked node)
      = (.ok (.descend node), { walk.marked node with tree := after, state }) := by
    rw [cascadeLimit, settle, run_bind_ok visits]
    rfl
  have stays : Shown plan tree Noted (done ++ [node])
      { walk.marked node with tree := after, state } :=
    shown.stay same noted (fun reached => absurd reached outer)
      (by simp [Plan.refusal?_unchanged unchanged, marked])
  have none : ({ walk.marked node with tree := after, state } : Walk σ).nextChild? node = none := by
    rw [nextChild?, stays.outside outer, spare.childless]
    rfl
  rw [visitNode, run_bind_ok settles]
  dsimp only
  rw [descend, run_bind_ok (run_get _), none]
  exact ⟨_, rfl, stays⟩

/-- A child is next when all before it are done, and what stands in their places. -/
theorem Shown.nextChild? {done : List NodeId} {walk : Walk σ} {parent : NodeId}
    (shown : Shown plan tree Noted done walk) (reached : tree.Reaches parent)
    {past rest : List (Slot × NodeId)} (around : tree.children parent = past ++ rest)
    (behind : ∀ child ∈ past, child.2 ∈ done ∧ ∀ node ∈ plan.standing tree child.2, node ∈ done) :
    walk.nextChild? parent = (plan.shown tree done rest).find? fun child =>
      !walk.visited.contains child.2 && walk.tree.parent? child.2 == some ⟨parent, child.1⟩ := by
  have seen : (plan.shown tree done past).find? (fun child =>
      !walk.visited.contains child.2 && walk.tree.parent? child.2 == some ⟨parent, child.1⟩)
        = none := by
    rw [List.find?_eq_none]
    rintro ⟨slot, node⟩ member
    have early : node ∈ done := by
      rcases Plan.mem_shown member with among | ⟨child, among, _, stands⟩
      · exact (behind _ among).1
      · exact (behind child among).2 node stands
    simp [(shown.visited node).mpr early]
  rw [Walk.nextChild?, shown.children reached, around, Plan.shown_append, List.find?_append, seen,
    Option.none_or]

include planned in
/-- The children that are left are visited one after the other. -/
theorem descend_shown {depth : Nat} {parent : NodeId} (reached : tree.Reaches parent)
    (deep : ∀ child ∈ tree.children parent, ∃ less, depth = less + 1)
    (each : ∀ child ∈ tree.children parent, ∀ {done later steps} {walk : Walk σ},
      plan.itinerary tree = done ++ (plan.visits tree depth child.2 ++ later) →
      2 * (plan.visits tree depth child.2).length ≤ steps → Shown plan tree Noted done walk →
      Makes plan tree Noted (plan.visits tree depth child.2) done
        ((visitNode visitor steps child.2 (tree.parent? child.2)).run (walk.marked child.2)))
    {past rest : List (Slot × NodeId)} (around : tree.children parent = past ++ rest)
    {done later : List NodeId} {steps : Nat} {walk : Walk σ}
    (order : plan.itinerary tree
      = done ++ ((rest.flatMap fun child => plan.visits tree depth child.2) ++ later))
    (behind : ∀ child ∈ past, child.2 ∈ done ∧ ∀ node ∈ plan.standing tree child.2, node ∈ done)
    (enough : 2 * (rest.flatMap fun child => plan.visits tree depth child.2).length + 1 ≤ steps)
    (shown : Shown plan tree Noted done walk) :
    Makes plan tree Noted (rest.flatMap fun child => plan.visits tree depth child.2) done
      ((descend visitor steps parent).run walk) := by
  induction rest generalizing past done steps walk with
  | nil =>
      obtain ⟨left, rfl⟩ : ∃ left, steps = left + 1 := ⟨steps - 1, by omega⟩
      have none := shown.nextChild? reached around behind
      rw [descend, run_bind_ok (run_get walk), none]
      exact ⟨walk, rfl, by simpa using shown⟩
  | cons child rest ih =>
      obtain ⟨slot, id⟩ := child
      have held : (slot, id) ∈ tree.children parent := by simp [around]
      obtain ⟨less, rfl⟩ := deep _ held
      simp only [List.flatMap_cons, List.append_assoc, List.length_append] at order enough ⊢
      have absent : id ∉ done := not_mem_done planned order
      have named := planned.tidy.named reached held
      have next : walk.nextChild? parent = some (slot, id) := by
        rw [shown.nextChild? reached around behind, Plan.shown_cons_later absent]
        apply List.find?_cons_of_pos
        have unseen : ¬ walk.visited.contains id := fun early => absent ((shown.visited id).mp early)
        simp [unseen, shown.links (.child reached held) absent, named]
      obtain ⟨left, rfl⟩ : ∃ left, steps = left + 1 := ⟨steps - 1, by omega⟩
      have fuel : 2 * (plan.visits tree (less + 1) id).length ≤ left := by omega
      have visits : Makes plan tree Noted (plan.visits tree (less + 1) id) done
          ((visitNode visitor left id (tree.parent? id)).run (walk.marked id)) :=
        each _ held order fuel shown
      rw [descend, run_bind_ok (run_get walk), next]
      dsimp only
      rw [run_bind_ok (shown.run_mark absent), ← named]
      refine visits.bind fun further => ?_
      -- Each visit has at least its own node, which pays for the step that found the child.
      have longer : 1 ≤ (plan.visits tree (less + 1) id).length := by
        rw [Plan.visits_succ, List.length_cons]
        omega
      have onward := @ih (past ++ [(slot, id)])
      apply onward (by simp [around]) (by simp [order]) _ (by omega) further
      intro child member
      rcases List.mem_append.mp member with early | last
      · obtain ⟨before, stood⟩ := behind child early
        exact ⟨List.mem_append_left _ before,
          fun node stands => List.mem_append_left _ (stood node stands)⟩
      · cases List.mem_singleton.mp last
        refine ⟨List.mem_append_right _ (Plan.mem_visits.mpr (Or.inl rfl)), ?_⟩
        intro node stands
        apply List.mem_append_right
        by_cases here : node = id
        · exact Plan.mem_visits.mpr (Or.inl here)
        · exact Plan.mem_visits.mpr (Or.inr (Or.inr ⟨stands, here⟩))

include planned follows in
/-- A sequence is gone through in order, with what is below the node where the node is. -/
theorem sequence_shown {id : NodeId} {under nodes : List NodeId} {steps : Nat} (link : Option Link)
    (descends : id ∈ nodes → ∀ {done later} {walk : Walk σ},
      plan.itinerary tree = done ++ (under ++ later) → Shown plan tree Noted done walk →
      Makes plan tree Noted under done ((descend visitor steps id).run walk))
    (spares : ∀ node ∈ nodes, node ≠ id → tree.Spare node ∧ 2 ≤ steps)
    {done later : List NodeId} {walk : Walk σ}
    (order : plan.itinerary tree = done ++ (nodes.flatMap (Plan.share id under) ++ later))
    (shown : Shown plan tree Noted done walk) :
    Makes plan tree Noted (nodes.flatMap (Plan.share id under)) done
      ((nodes.forM fun node => do
        if node = id then descend visitor steps id
        else if ← mark node then visitNode visitor steps node link).run walk) := by
  induction nodes generalizing done walk with
  | nil => exact ⟨walk, rfl, by simpa using shown⟩
  | cons node rest ih =>
      have later := fun other member => spares other (List.mem_cons_of_mem node member)
      rw [List.flatMap_cons] at order ⊢
      rw [List.append_assoc] at order
      have makes : Makes plan tree Noted (Plan.share id under node) done ((do
          if node = id then descend visitor steps id
          else if ← mark node then visitNode visitor steps node link : Walking σ Unit).run walk) := by
        by_cases here : node = id
        · rw [here, Plan.share_self] at order
          rw [here, Plan.share_self, if_pos rfl]
          exact descends (here ▸ List.mem_cons_self) order shown
        · rw [Plan.share_other here, List.singleton_append] at order
          obtain ⟨spare, enough⟩ := spares node List.mem_cons_self here
          obtain ⟨left, rfl⟩ : ∃ left, steps = left + 2 := ⟨steps - 2, by omega⟩
          rw [Plan.share_other here, if_neg here,
            run_bind_ok (shown.run_mark (not_mem_done planned order)), if_pos rfl]
          exact visitNode_spare planned follows order spare shown link left
      exact makes.bind fun further =>
        ih (fun member => descends (List.mem_cons_of_mem _ member)) later (by simp [order]) further

end

/-! ### Whole walks -/

section

variable (planned : Planned plan tree) (follows : Follows plan tree visitor Noted)

include planned follows in
theorem visitNode_shown (depth : Nat) {id : NodeId} {above : List NodeId} (path : tree.Path id above)
    (deep : tree.size ≤ depth + above.length) {done later : List NodeId} {steps : Nat}
    {walk : Walk σ} (order : plan.itinerary tree = done ++ (plan.visits tree depth id ++ later))
    (enough : 2 * (plan.visits tree depth id).length ≤ steps)
    (shown : Shown plan tree Noted done walk) :
    Makes plan tree Noted (plan.visits tree depth id) done
      ((visitNode visitor steps id (tree.parent? id)).run (walk.marked id)) := by
  -- The depth bounds the way down, and the number of visits the steps.
  induction depth generalizing id above done later steps walk with
  | zero =>
      obtain ⟨less, absurd⟩ := path.depth_left planned.held planned.rooted deep
      cases absurd
  | succ depth ih =>
      have further : ∀ child ∈ tree.children id, tree.size ≤ depth + (id :: above).length := by
        intro child _
        rw [List.length_cons]
        omega
      have descends : ∀ {done later steps} {walk : Walk σ},
          plan.itinerary tree = done ++ (plan.visitsUnder tree depth id ++ later) →
          2 * (plan.visitsUnder tree depth id).length + 1 ≤ steps →
          Shown plan tree Noted done walk →
          Makes plan tree Noted (plan.visitsUnder tree depth id) done
            ((descend visitor steps id).run walk) := by
        intro done later steps walk order enough shown
        apply descend_shown planned path.reaches _ _ (List.nil_append _).symm order nofun enough shown
        · intro child held
          exact (path.child held).depth_left planned.held planned.rooted (further child held)
        · intro child held done later steps walk order enough shown
          exact ih (.child path held) (further child held) order enough shown
      rw [Plan.visits_succ, List.cons_append] at order
      rw [Plan.visits_succ, List.length_cons] at enough
      obtain ⟨left, rfl⟩ : ∃ left, steps = left + 1 := ⟨steps - 1, by omega⟩
      obtain ⟨answer, middle, settles, settled, visited⟩ :=
        settle_shown planned follows order path.reaches shown
      have onward : plan.itinerary tree = (done ++ [id]) ++ ((plan.standing tree id).flatMap
          (Plan.share id (plan.visitsUnder tree depth id)) ++ later) := by
        rw [order]
        simp
      rw [visitNode, run_bind_ok settles, Plan.visits_succ]
      apply Makes.cons
      cases settled with
      | stays stands =>
          simp only [stands, List.flatMap_singleton, Plan.share_self] at onward enough ⊢
          exact descends onward (by omega) visited
      | goes stands =>
          rw [stands]
          exact ⟨middle, rfl, by simpa using visited⟩
      | yields =>
          have long : ∀ node ∈ plan.standing tree id,
              2 * (Plan.share id (plan.visitsUnder tree depth id) node).length + 1 ≤ left := by
            intro node member
            have part := ((List.singleton_sublist.mpr member).flatMap
              (Plan.share id (plan.visitsUnder tree depth id))).length_le
            rw [List.flatMap_singleton] at part
            omega
          apply sequence_shown planned follows _ _ _ onward visited
          · intro member done later walk order shown
            have fuel := long id member
            rw [Plan.share_self] at fuel
            exact descends order fuel shown
          · intro node member other
            have fuel := long node member
            rw [Plan.share_other other, List.length_singleton] at fuel
            exact ⟨(planned.fits.mem_standing member other).1, by omega⟩

include planned follows in
/-- A walk that follows a plan makes the visits of the plan and ends. -/
theorem run_shown {steps : Nat} (enough : 2 * tree.size ≤ steps) {state : σ}
    (noted : Noted [] tree state) :
    ∃ after, Walk.run visitor steps tree state tree.root = (.ok (), after)
      ∧ Shown plan tree Noted (plan.itinerary tree) after := by
  have start : Shown plan tree Noted [] { tree, state } := by
    constructor
    case size => rfl
    case children =>
      intro id _
      exact (Plan.shown_later fun _ _ => List.not_mem_nil).symm
    case outside =>
      intro id _
      rfl
    case links =>
      intro id _ _
      rfl
    case visited => simp
    case errors => rfl
    case limited => rfl
    case noted => exact noted
  obtain ⟨node, found⟩ := Tree.node?_of_contains planned.rooted
  have link : node.parent = tree.parent? tree.root := by
    rw [Tree.parent?, found]
    rfl
  -- There are no more visits than nodes, and each takes two steps.
  have few := planned.fits.itinerary_length planned.tidy planned.rooted
  have order : plan.itinerary tree = [] ++ (plan.visits tree tree.size tree.root ++ []) := by
    rw [List.append_nil]
    rfl
  have fuel : 2 * (plan.visits tree tree.size tree.root).length ≤ steps :=
    Nat.le_trans (Nat.mul_le_mul_left 2 few) enough
  obtain ⟨after, ran, shown⟩ := visitNode_shown planned follows tree.size .root (Nat.le_refl _)
    order fuel start
  refine ⟨after, ?_, shown⟩
  rw [Walk.run, subtree, run_bind_ok (run_get _)]
  dsimp only
  rw [found]
  dsimp only
  rw [run_bind_ok (start.run_mark List.not_mem_nil), link]
  exact ran

end

-- The visitor that answers from a plan and writes down what it was asked about.
def deciding (plan : Plan) : Visitor (List NodeId) := fun id => do
  modify fun walk => { walk with state := walk.state ++ [id] }
  return plan id

theorem follows_deciding (plan : Plan) (tree : Tree) :
    Follows plan tree (deciding plan) fun done _ asked => asked = done where
  visit := by
    intro done id later walk _ asked
    exact ⟨walk.tree, walk.state ++ [id], rfl, ⟨rfl, fun _ => rfl, fun _ => rfl⟩, by rw [asked]⟩
  edit _ asked := asked

/-- A walk with verdicts from a plan ends. The children of every node that is not taken out, nor below
one that is, are those it had before, each with what the plan puts in its place: itself, nothing, or
a sequence. Verdicts that a slot or the root does not allow leave their node where it is, and are
the errors of the walk, one for each. The visitor is asked once about each node that is not below
one that goes and about each node of a sequence: about the nodes that were there in source order,
and about a sequence in its order after the node whose place it takes. -/
theorem run_deciding {plan : Plan} {tree : Tree} (held : tree.HeldOnce)
    (rooted : tree.contains tree.root) (loose : tree.parent? tree.root = none)
    (fits : plan.Fits tree) {steps : Nat} (enough : 2 * tree.size ≤ steps) :
    ∃ after, run (deciding plan) steps tree [] tree.root = (.ok (), after)
      ∧ (∀ id, plan.Called tree id → id ∈ plan.standing tree id →
        after.tree.children id = plan.settled tree id)
      ∧ after.errors = after.state.filterMap (fun id =>
        (plan.refusal? tree id).map fun error => (id, error))
      ∧ after.state = plan.itinerary tree
      ∧ after.state.Nodup
      ∧ (∀ id, id ∈ after.state ↔ plan.Called tree id
        ∨ ∃ holder, plan.Called tree holder ∧ id ∈ plan.standing tree holder)
      ∧ (after.state.filter (· ∈ tree.descendants tree.root)).Sublist (tree.descendants tree.root)
      ∧ ∀ id, plan.Called tree id →
        (id :: (plan.standing tree id).filter (· ≠ id)).Sublist after.state := by
  have planned : Planned plan tree := ⟨held, rooted, loose, fits⟩
  obtain ⟨after, ran, shown⟩ := run_shown planned (follows_deciding plan tree) enough rfl
  have asked : after.state = plan.itinerary tree := shown.noted
  refine ⟨after, ran, ?_, asked ▸ shown.errors, asked, ?_, ?_, ?_, ?_⟩
  · intro id called stays
    rw [shown.children called.reaches]
    apply Plan.shown_settled
    intro child member
    exact (Plan.mem_itinerary_iff held rooted).mpr (Or.inl (.child called stays member))
  · rw [asked]
    exact planned.order_nodup
  · intro id
    rw [asked]
    exact Plan.mem_itinerary_iff held rooted
  · rw [asked]
    exact fits.visits_sublist_within planned.tidy tree.size .self
  · intro id called
    rw [asked]
    exact called.sequence_sublist held rooted

-- Three statements, the second one around an expression, and two nodes beside them.
def listed : Tree where
  source := ""
  root := ⟨0⟩
  nodes := #[{ shape := .program [⟨1⟩, ⟨2⟩, ⟨4⟩] },
    { shape := .raw "a", parent := some ⟨⟨0⟩, .statement⟩ },
    { shape := .expressionStatement ⟨3⟩, parent := some ⟨⟨0⟩, .statement⟩ },
    { shape := .raw "b", parent := some ⟨⟨2⟩, .expression⟩ },
    { shape := .raw "c", parent := some ⟨⟨0⟩, .statement⟩ },
    { shape := .raw "d" }, { shape := .raw "e" }]

-- The first statement gets a neighbour on each side, the last is to go, and so is the expression,
-- which cannot.
def listing : Plan := fun id =>
  match id.index with
  | 1 => .inserted [⟨5⟩, ⟨1⟩, ⟨6⟩]
  | 3 | 4 => .deleted
  | _ => .unchanged

theorem listing_eq (id : NodeId) : listing id = if id = ⟨1⟩ then .inserted [⟨5⟩, ⟨1⟩, ⟨6⟩]
    else if id = ⟨3⟩ ∨ id = ⟨4⟩ then .deleted else .unchanged := by
  rcases id with ⟨_ | _ | _ | _ | _ | _⟩ <;> rfl

theorem listing_inserted {id : NodeId} {nodes : List NodeId} (told : listing id = .inserted nodes) :
    id = ⟨1⟩ ∧ nodes = [⟨5⟩, ⟨1⟩, ⟨6⟩] := by
  rw [listing_eq] at told
  grind

theorem fits_listing : listing.Fits listed where
  kept id new := by
    rw [listing_eq]
    grind
  outside {id} outer := by
    have program : listed.Reaches ⟨0⟩ := .self
    have second : listed.Reaches ⟨2⟩ := .child program (show (Slot.statement, _) ∈ _ by decide)
    have first : id ≠ ⟨1⟩ := by
      rintro rfl
      exact outer (.child program (show (Slot.statement, _) ∈ _ by decide))
    have inner : id ≠ ⟨3⟩ := by
      rintro rfl
      exact outer (.child second (show (Slot.expression, _) ∈ _ by decide))
    have last : id ≠ ⟨4⟩ := by
      rintro rfl
      exact outer (.child program (show (Slot.statement, _) ∈ _ by decide))
    simp [listing_eq, first, inner, last]
  nodup told := by
    obtain ⟨_, rfl⟩ := listing_inserted told
    decide
  spare {id nodes node} told member other := by
    obtain ⟨rfl, rfl⟩ := listing_inserted told
    have spare : node = ⟨5⟩ ∨ node = ⟨6⟩ := by
      simp only [List.mem_cons, List.not_mem_nil, or_false] at member
      tauto
    rcases spare with rfl | rfl <;> exact ⟨rfl, rfl, rfl, by decide⟩
  apart told also _ _ := (listing_inserted told).1.trans (listing_inserted also).1.symm

/-- The node that cannot go is still visited, and the walk goes on behind the sequence. -/
theorem run_deciding_listed : listed.HeldOnce ∧ listing.Fits listed
    ∧ ∃ after, run (deciding listing) 14 listed [] ⟨0⟩ = (.ok (), after)
      ∧ after.tree.children ⟨0⟩
        = [(.statement, ⟨5⟩), (.statement, ⟨1⟩), (.statement, ⟨6⟩), (.statement, ⟨2⟩)]
      ∧ after.errors = [(⟨3⟩, .invalidRemoval ⟨3⟩ (some .expression))]
      ∧ after.state = [⟨0⟩, ⟨1⟩, ⟨5⟩, ⟨6⟩, ⟨2⟩, ⟨3⟩, ⟨4⟩] := by
  have held : listed.HeldOnce := (Tree.validate_ok_iff rfl).mp (by decide +kernel)
  obtain ⟨after, ran, slots, errors, asked, _⟩ :=
    run_deciding held rfl rfl fits_listing (show 2 * listed.size ≤ 14 by decide)
  have order : listing.itinerary listed = [⟨0⟩, ⟨1⟩, ⟨5⟩, ⟨6⟩, ⟨2⟩, ⟨3⟩, ⟨4⟩] := by decide +kernel
  refine ⟨held, fits_listing, after, ran, ?_, ?_, asked.trans order⟩
  · rw [slots ⟨0⟩ .root (by decide +kernel)]
    decide +kernel
  · rw [errors, asked, order]
    decide +kernel

end Walk

end Codemod
