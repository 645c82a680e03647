import Codemod.Proofs.Edit.Counting
import Codemod.Proofs.Walk.Visits
import Mathlib.Data.Finset.Card

/-!
Walks that add no nodes come to an end, whatever they are over. Every mark takes one of the ids that
the arena had at first, and only a mark leads to another visit or back to the children of a node; so
the ids not yet marked bound the steps, whatever the slots and back-references say.
-/

namespace Codemod

open Step

namespace Edit

variable {tree after : Tree} {result : Except Fault Unit × Tree}

/-- Edits of nodes that are there add none and take none away. -/
theorem Course.size (course : Course tree result) : result.2.size = tree.size := by
  cases course with
  | idle | refused | absent => rfl
  | opened id => exact (tree.framed_recordNode id).size
  | rewritten =>
      exact (Tree.framed_ordered.trans (tree.framed_recordNode _) (Tree.framed_setData _ _ _)).size
  | refilled | halted => exact (tree.framed_refill _ _ _ _).size
  | rerooted =>
      exact (Tree.framed_unlink _ _ _).size.trans (tree.framed_setParent _ none).size
  | uprooted => exact (tree.framed_setParent _ none).size

theorem relink_ok {id : NodeId} {link : Option Link}
    (ran : (relink id link).run tree = (.ok (), after)) :
    tree.contains id ∧ after = tree.relink id link := by
  obtain ⟨node, middle, reads, sets⟩ := run_bind_eq_ok.mp ran
  obtain ⟨found, rfl⟩ := node_ok reads
  cases sets
  exact ⟨Tree.contains_iff.mpr (Array.getElem?_eq_some_iff.mp found).1, rfl⟩

theorem forM_relink_ok {ids : List NodeId} {link : Option Link}
    (ran : (ids.forM fun id => relink id link).run tree = (.ok (), after)) :
    tree.Framed after ∧ ∀ id ∈ ids, tree.contains id := by
  induction ids generalizing tree with
  | nil =>
      cases ran
      exact ⟨Tree.framed_ordered.refl _, nofun⟩
  | cons id rest ih =>
      obtain ⟨_, middle, first, others⟩ := run_bind_eq_ok.mp ran
      obtain ⟨inside, rfl⟩ := relink_ok first
      obtain ⟨framed, insides⟩ := ih others
      have relinked := tree.framed_relink id link
      refine ⟨Tree.framed_ordered.trans relinked framed, List.forall_mem_cons.mpr ⟨inside, ?_⟩⟩
      intro other member
      rw [← relinked.contains other]
      exact insides other member

theorem replaceAt_enters {link : Option Link} {old new : NodeId} (differ : old ≠ new)
    (ran : (replaceAt link old new).run tree = (.ok (), after)) : after.contains new := by
  have size := (course_replaceAt link old new tree).size
  rw [ran] at size
  unfold replaceAt at ran
  rw [if_neg differ] at ran
  cases link with
  | none =>
      dsimp only at ran
      rw [run_bind_ok (run_get tree)] at ran
      by_cases foreign : old ≠ tree.root
      · rw [if_pos foreign] at ran
        cases ran
      · rw [if_neg foreign] at ran
        obtain ⟨node, middle, reads, _⟩ := run_bind_eq_ok.mp ran
        obtain ⟨found, _⟩ := node_ok reads
        rw [Tree.contains_iff, size]
        exact (Array.getElem?_eq_some_iff.mp found).1
  | some link =>
      obtain ⟨⟨shape, storage⟩, opened, _, fills⟩ := run_bind_eq_ok.mp ran
      dsimp only at fills
      cases replaced : storage.replace? old new with
      | none =>
          rw [replaced] at fills
          cases fills
      | some filled =>
          rw [replaced] at fills
          obtain ⟨_, _, _, unlinks⟩ := run_bind_eq_ok.mp fills
          obtain ⟨_, cleared, _, relinks⟩ := run_bind_eq_ok.mp unlinks
          obtain ⟨_, linked, relinked, bumps⟩ := run_bind_eq_ok.mp relinks
          obtain ⟨inside, rfl⟩ := relink_ok relinked
          cases bumps
          exact ((cleared.framed_relink new (some link)).contains new).trans inside

theorem spliceAt_enters {link : Option Link} {id : NodeId} {nodes : List NodeId}
    (ran : (spliceAt link id nodes).run tree = (.ok (), after)) :
    ∀ node ∈ nodes, after.contains node := by
  unfold spliceAt at ran
  cases link with
  | none => cases ran
  | some link =>
      dsimp only at ran
      by_cases list : link.slot.arity ≠ .list
      · rw [if_pos list] at ran
        cases ran
      rw [if_neg list] at ran
      obtain ⟨⟨shape, storage⟩, opened, _, fills⟩ := run_bind_eq_ok.mp ran
      cases storage with
      | one | maybe => cases fills
      | many held =>
          dsimp only at fills
          by_cases absent : id ∉ held
          · rw [if_pos absent] at fills
            cases fills
          rw [if_neg absent] at fills
          obtain ⟨_, _, _, leaves⟩ := run_bind_eq_ok.mp fills
          -- Whether the node itself leaves its list or stays, the others are pointed at it next.
          obtain ⟨cleared, relinks⟩ : ∃ cleared, (do
              nodes.forM fun id => relink id (some link)
              bump : Edit Unit).run cleared = (.ok (), after) := by
            split at leaves
            · obtain ⟨_, cleared, _, rest⟩ := run_bind_eq_ok.mp leaves
              exact ⟨cleared, rest⟩
            · exact ⟨_, leaves⟩
          obtain ⟨_, linked, relinked, bumps⟩ := run_bind_eq_ok.mp relinks
          obtain ⟨framed, inside⟩ := forM_relink_ok relinked
          cases bumps
          exact fun node member => (framed.contains node).trans (inside node member)

end Edit

def Visiting.Spare {σ : Type} (visit : Visiting σ) : Prop :=
  ∀ id tree state, (visit id tree state).2.1.size ≤ tree.size

theorem Visiting.Spare.noted {σ : Type} {visit : Visiting σ} (spare : visit.Spare) :
    visit.noted.Spare :=
  fun id tree both => spare id tree both.1

namespace Walk

variable {σ α β : Type} {limit : Nat} {before middle after : Walk σ}

structure Bounded (limit : Nat) (walk : Walk σ) : Prop where
  size : walk.tree.size ≤ limit
  marks : ∀ id, walk.visited.contains id → id.index < limit

structure Advances (limit : Nat) (before after : Walk σ) : Prop where
  bounded : after.Bounded limit
  marks : ∀ id, before.visited.contains id → after.visited.contains id

theorem advances_refl (bounded : before.Bounded limit) : Advances limit before before :=
  ⟨bounded, fun _ => id⟩

theorem Advances.trans (first : Advances limit before middle)
    (second : Advances limit middle after) : Advances limit before after :=
  ⟨second.bounded, fun id seen => second.marks id (first.marks id seen)⟩

def unmarked (limit : Nat) (walk : Walk σ) : Finset Nat :=
  (Finset.range limit).filter fun index => ¬ walk.visited.contains ⟨index⟩

theorem mem_unmarked {walk : Walk σ} {index : Nat} :
    index ∈ walk.unmarked limit ↔ index < limit ∧ ¬ walk.visited.contains ⟨index⟩ := by
  simp [unmarked]

theorem Advances.unmarked_le (advances : Advances limit before after) :
    (after.unmarked limit).card ≤ (before.unmarked limit).card := by
  apply Finset.card_le_card
  intro index member
  rw [mem_unmarked] at member ⊢
  exact ⟨member.1, fun seen => member.2 (advances.marks _ seen)⟩

/-- A mark leaves one id less to be marked. -/
theorem marked_advances (bounded : before.Bounded limit) {id : NodeId} (inside : id.index < limit)
    (fresh : before.visited.contains id = false) :
    Advances limit before { before with visited := before.visited.insert id }
      ∧ (unmarked limit { before with visited := before.visited.insert id }).card
        < (before.unmarked limit).card := by
  have advances : Advances limit before
      { before with visited := before.visited.insert id } := by
    refine ⟨⟨bounded.size, ?_⟩, fun other seen => by simp [seen]⟩
    intro other seen
    rw [NodeSet.contains_insert, Bool.or_eq_true, decide_eq_true_iff] at seen
    rcases seen with rfl | seen
    · exact inside
    · exact bounded.marks other seen
  refine ⟨advances, Finset.card_lt_card ((Finset.ssubset_iff_of_subset ?_).mpr ⟨id.index, ?_, ?_⟩)⟩
  · intro index member
    rw [mem_unmarked] at member ⊢
    exact ⟨member.1, fun seen => member.2 (advances.marks _ seen)⟩
  · rw [mem_unmarked]
    exact ⟨inside, by simp [fresh]⟩
  · rw [mem_unmarked]
    simp

-- With steps enough the walk stops, always in the same way, and not for want of steps.
def Halts (limit need : Nat) (step : Nat → Walking σ α) (walk : Walk σ) : Prop :=
  ∃ result after, result ≠ .error .exhausted ∧ Advances limit walk after
    ∧ ∀ steps, need ≤ steps → (step steps).run walk = (result, after)

theorem Halts.mono {need more : Nat} {step : Nat → Walking σ α} (halts : Halts limit need step before)
    (enough : need ≤ more) : Halts limit more step before := by
  obtain ⟨result, after, answers, advances, runs⟩ := halts
  exact ⟨result, after, answers, advances, fun steps later => runs steps (by omega)⟩

/-- Steps that come first, each time the same. -/
theorem Halts.behind {need : Nat} {step next : Nat → Walking σ α}
    (halts : Halts limit need next middle) (advances : Advances limit before middle)
    (leads : ∀ steps, (step steps).run before = (next steps).run middle) :
    Halts limit need step before := by
  obtain ⟨result, after, answers, further, runs⟩ := halts
  exact ⟨result, after, answers, advances.trans further,
    fun steps enough => (leads steps).trans (runs steps enough)⟩

theorem Halts.succ {need : Nat} {step : Nat → Walking σ α}
    (halts : Halts limit need (fun steps => step (steps + 1)) before) :
    Halts limit (need + 1) step before := by
  obtain ⟨result, after, answers, advances, runs⟩ := halts
  refine ⟨result, after, answers, advances, ?_⟩
  intro steps enough
  obtain ⟨fewer, rfl⟩ : ∃ fewer, steps = fewer + 1 := ⟨steps - 1, by omega⟩
  exact runs fewer (by omega)

theorem Halts.bind {need : Nat} {step : Nat → Walking σ α} {next : Nat → α → Walking σ β}
    (first : Halts limit need step before)
    (second : ∀ value middle, Advances limit before middle →
      Halts limit need (fun steps => next steps value) middle) :
    Halts limit need (fun steps => step steps >>= next steps) before := by
  obtain ⟨result, middle, answers, advances, runs⟩ := first
  cases result with
  | error stop =>
      refine ⟨.error stop, middle, fun same => answers ?_, advances, ?_⟩
      · cases same
        rfl
      · intro steps enough
        exact run_bind_error (runs steps enough) _
  | ok value =>
      obtain ⟨result, after, answers, further, goes⟩ := second value middle advances
      refine ⟨result, after, answers, advances.trans further, ?_⟩
      intro steps enough
      rw [run_bind_ok (runs steps enough)]
      exact goes steps enough

theorem halts_pure (bounded : before.Bounded limit) (need : Nat) (value : α) :
    Halts limit need (fun _ => pure value) before :=
  ⟨.ok value, before, nofun, advances_refl bounded, fun _ _ => rfl⟩

theorem halts_forM (bounded : before.Bounded limit) {need : Nat} {values : List α}
    {step : Nat → α → Walking σ Unit} (each : ∀ value ∈ values, ∀ middle,
      Advances limit before middle → Halts limit need (fun steps => step steps value) middle) :
    Halts limit need (fun steps => values.forM (step steps)) before := by
  induction values generalizing before with
  | nil => exact halts_pure bounded need ()
  | cons value rest ih =>
      apply Halts.bind (each value List.mem_cons_self before (advances_refl bounded))
      intro _ middle advances
      apply ih advances.bounded
      intro other member later further
      exact each other (List.mem_cons_of_mem _ member) later (advances.trans further)

/-- How a place may settle: what is inserted is below the limit as well. -/
structure Confined (limit : Nat) (before : Walk σ) (ended : Except Stop Settled × Walk σ) : Prop where
  answers : ended.1 ≠ .error .exhausted
  advances : Advances limit before ended.2
  entering : ∀ {current nodes}, ended.1 = .ok (.inserted current nodes) →
    ∀ node ∈ nodes, node.index < limit

theorem Confined.later {ended : Except Stop Settled × Walk σ}
    (confined : Confined limit middle ended) (advances : Advances limit before middle) :
    Confined limit before ended :=
  ⟨confined.answers, advances.trans confined.advances, confined.entering⟩

theorem confined_pure (bounded : before.Bounded limit) {settled : Settled}
    (entering : ∀ {current nodes}, settled = .inserted current nodes →
      ∀ node ∈ nodes, node.index < limit) :
    Confined limit before ((pure settled : Walking σ Settled).run before) :=
  ⟨nofun, advances_refl bounded, fun same => entering (Except.ok.inj same)⟩

theorem confined_crash (bounded : before.Bounded limit) (crash : Crash) :
    Confined limit before ((throw (.crashed crash) : Walking σ Settled).run before) :=
  ⟨nofun, advances_refl bounded, nofun⟩

theorem confined_descend (bounded : before.Bounded limit) (current : NodeId) :
    Confined limit before ((pure (.descend current) : Walking σ Settled).run before) :=
  confined_pure bounded nofun

theorem confined_done (bounded : before.Bounded limit) :
    Confined limit before ((pure .done : Walking σ Settled).run before) :=
  confined_pure bounded nofun

/-- An edit that is refused leaves the node where it is; one that stops ends the walk. -/
theorem confined_carryOut (bounded : before.Bounded limit) {edit : Edit Unit}
    (carried : Carried edit) (current : NodeId) {next : Bool → Walking σ Settled}
    (refused : next false = pure (.descend current))
    (made : ∀ {middle : Walk σ}, edit.run before.tree = (.ok (), middle.tree) →
      middle.Bounded limit → Confined limit middle ((next true).run middle)) :
    Confined limit before ((carryOut current edit >>= next).run before) := by
  have size := (carried_course carried before.tree).size
  rw [run_bind, run_carryOut]
  cases ran : edit.run before.tree with
  | mk result tree =>
      rw [ran] at size
      have bound : tree.size ≤ limit := size.trans_le bounded.size
      rcases result with (error | ⟨size, index⟩) | ⟨⟩
      · dsimp only
        rw [refused]
        have still : Bounded limit
            { before with tree, errors := before.errors ++ [(current, error)] } :=
          ⟨bound, bounded.marks⟩
        exact Confined.later (confined_descend still current) ⟨still, fun _ seen => seen⟩
      · have still : Bounded limit { before with tree } := ⟨bound, bounded.marks⟩
        exact (confined_crash still _).later ⟨still, fun _ seen => seen⟩
      · have still : Bounded limit { before with tree, changes := before.changes + 1 } :=
          ⟨bound, bounded.marks⟩
        exact (made ran still).later ⟨still, fun _ seen => seen⟩

section

variable {visit : Visiting σ} (spare : visit.Spare)

include spare

theorem settle_confined (bounded : before.Bounded limit) (link : Option Link) (left : Nat)
    (current : NodeId) :
    Confined limit before ((settle visit.visitor link left current).run before) := by
  induction left generalizing before current with
  | zero =>
      have noted : Bounded limit
          { before with cascadeLimited := before.cascadeLimited ++ [current] } :=
        ⟨bounded.size, bounded.marks⟩
      exact (confined_descend noted current).later ⟨noted, fun _ seen => seen⟩
  | succ left ih =>
      have size := (spare current before.tree before.state).trans bounded.size
      rw [settle, run_bind, Visiting.run_visitor]
      generalize visit current before.tree before.state = answer at size ⊢
      obtain ⟨ended, tree, state⟩ := answer
      have visited : Advances limit before { before with tree, state } :=
        ⟨⟨size, bounded.marks⟩, fun _ seen => seen⟩
      cases ended with
      | error crash => exact (confined_crash visited.bounded crash).later visited
      | ok verdict =>
          refine Confined.later ?_ visited
          cases verdict with
          | unchanged => exact confined_descend visited.bounded current
          | replaced new =>
              dsimp only [Except.mapError]
              split
              · exact confined_descend visited.bounded current
              · next differ =>
                  apply confined_carryOut visited.bounded (.replaceAt link current new) current rfl
                  intro middle edits still
                  rw [if_pos rfl, run_bind, run_mark]
                  -- What an edit puts in is in the arena, which stays within the limit.
                  have inside : new.index < limit :=
                    (Tree.contains_iff.mp (Edit.replaceAt_enters (Ne.symm differ) edits)).trans_le
                      still.size
                  by_cases seen : middle.visited.contains new
                  · rw [if_pos seen]
                    exact confined_done still
                  · rw [if_neg seen]
                    have marked := (marked_advances still inside (Bool.eq_false_iff.mpr seen)).1
                    exact (ih marked.bounded new).later marked
          | deleted =>
              apply confined_carryOut visited.bounded (.removeAt link current) current rfl
              intro middle _ still
              exact confined_done still
          | inserted nodes =>
              apply confined_carryOut visited.bounded (.spliceAt link current nodes) current rfl
              intro middle edits still
              refine confined_pure still ?_
              rintro _ _ ⟨⟩ node member
              exact (Tree.contains_iff.mp (Edit.spliceAt_enters edits node member)).trans_le still.size

-- Visits halt where no more than so many ids are left to mark.
def VisitsHalt (visit : Visiting σ) (limit count : Nat) : Prop :=
  ∀ ⦃walk : Walk σ⦄, walk.Bounded limit → (walk.unmarked limit).card ≤ count → ∀ id link,
    Halts limit (2 * count + 2) (fun steps => visitNode visit.visitor steps id link) walk

def DescentsHalt (visit : Visiting σ) (limit count : Nat) : Prop :=
  ∀ ⦃walk : Walk σ⦄, walk.Bounded limit → (walk.unmarked limit).card ≤ count → ∀ parent,
    Halts limit (2 * count + 1) (fun steps => descend visit.visitor steps parent) walk

omit spare in
/-- The mark on a child pays for its visit and for going on with the other children. -/
theorem descents_halt {count : Nat} (visits : ∀ fewer < count, VisitsHalt visit limit fewer)
    (descents : ∀ fewer < count, DescentsHalt visit limit fewer) :
    DescentsHalt visit limit count := by
  intro walk bounded few parent
  apply Halts.succ
  cases next : walk.nextChild? parent with
  | none =>
      apply (halts_pure bounded (2 * count) ()).behind (advances_refl bounded)
      intro steps
      rw [descend, run_bind_ok (run_get walk), next]
  | some child =>
      obtain ⟨_, fresh, named⟩ := of_nextChild? next
      have inside : child.2.index < limit :=
        (Tree.contains_iff.mp (Tree.contains_of_parent? named)).trans_le bounded.size
      obtain ⟨marked, less⟩ := marked_advances bounded inside fresh
      have fewer := less.trans_le few
      have both := Halts.bind
        ((visits _ fewer marked.bounded (Nat.le_refl _) child.2 (some ⟨parent, child.1⟩)).mono
          (by omega : _ ≤ 2 * count))
        fun _ middle advances =>
          (descents _ fewer (marked.trans advances).bounded advances.unmarked_le parent).mono
            (by omega : _ ≤ 2 * count)
      apply both.behind marked
      intro steps
      rw [descend, run_bind_ok (run_get walk), next]
      dsimp only
      rw [run_bind, run_mark, if_neg (Bool.eq_false_iff.mp fresh)]

omit spare in
/-- The mark on a node of a sequence pays for its visit; below the visited node itself one goes on. -/
theorem sequence_halts {count : Nat} (visits : ∀ fewer < count, VisitsHalt visit limit fewer)
    (descents : DescentsHalt visit limit count) {walk : Walk σ} (bounded : walk.Bounded limit)
    (few : (walk.unmarked limit).card ≤ count) (current : NodeId) (link : Option Link)
    {node : NodeId} (inside : node.index < limit) :
    Halts limit (2 * count + 1) (fun steps =>
      if node = current then descend visit.visitor steps current
      else do
        if ← mark node then visitNode visit.visitor steps node link) walk := by
  by_cases same : node = current
  · simp only [if_pos same]
    exact descents bounded few current
  · simp only [if_neg same]
    by_cases seen : walk.visited.contains node
    · apply (halts_pure bounded _ ()).behind (advances_refl bounded)
      intro steps
      rw [run_bind, run_mark, if_pos seen]
      rfl
    · obtain ⟨marked, less⟩ := marked_advances bounded inside (Bool.eq_false_iff.mpr seen)
      have visited := visits _ (less.trans_le few) marked.bounded (Nat.le_refl _) node link
      apply (visited.mono (by omega)).behind marked
      intro steps
      rw [run_bind, run_mark, if_neg seen]
      rfl

theorem visits_halt (count : Nat) :
    VisitsHalt visit limit count ∧ DescentsHalt visit limit count := by
  -- On the ids that are left to mark: no visit begins before one of them was marked for it.
  induction count using Nat.strongRecOn with
  | ind count ih =>
      have visits := fun fewer less => (ih fewer less).left
      have descents := descents_halt visits fun fewer less => (ih fewer less).right
      refine ⟨?_, descents⟩
      intro walk bounded few id link
      apply Halts.succ
      have settles := settle_confined spare bounded link cascadeLimit id
      cases ran : (settle visit.visitor link cascadeLimit id).run walk with
      | mk ended middle =>
          rw [ran] at settles
          obtain ⟨answers, advances, entering⟩ := settles
          have fewer := advances.unmarked_le.trans few
          cases ended with
          | error stop =>
              refine ⟨.error stop, middle, fun same => answers ?_, advances, ?_⟩
              · cases same
                rfl
              · intro steps _
                dsimp only
                rw [visitNode, run_bind_error ran]
          | ok settled =>
              cases settled with
              | done =>
                  apply (halts_pure advances.bounded _ ()).behind advances
                  intro steps
                  rw [visitNode, run_bind_ok ran]
              | descend current =>
                  apply (descents advances.bounded fewer current).behind advances
                  intro steps
                  rw [visitNode, run_bind_ok ran]
              | inserted current nodes =>
                  have each := fun node member later (further : Advances limit middle later) =>
                    sequence_halts visits descents further.bounded (further.unmarked_le.trans fewer)
                      current link (entering rfl node member)
                  apply (halts_forM advances.bounded each).behind advances
                  intro steps
                  rw [visitNode, run_bind_ok ran]

/-- Twice as many steps as there are nodes are enough. -/
theorem subtree_halts (tree : Tree) (state : σ) (start : NodeId) :
    Halts tree.size (2 * tree.size) (fun steps => subtree visit.visitor steps start)
      { tree, state } := by
  have bounded : Bounded tree.size ({ tree, state } : Walk σ) := ⟨Nat.le_refl _, nofun⟩
  cases found : tree.node? start with
  | none =>
      refine ⟨.error (.crashed (.ofMissing tree.size start.index)), _, nofun,
        advances_refl bounded, fun steps _ => ?_⟩
      dsimp only
      rw [subtree, run_bind_ok (run_get _)]
      dsimp only
      rw [found]
      rfl
  | some node =>
      have inside : start.index < tree.size := (Array.getElem?_eq_some_iff.mp found).1
      have fresh : (({ tree, state } : Walk σ).visited.contains start) = false := rfl
      obtain ⟨marked, less⟩ := marked_advances bounded inside fresh
      have all : (unmarked tree.size ({ tree, state } : Walk σ)).card ≤ tree.size :=
        (Finset.card_filter_le _ _).trans_eq (Finset.card_range _)
      have visits := (visits_halt spare (tree.size - 1)).1 marked.bounded (by omega) start node.parent
      apply (visits.mono (by omega)).behind marked
      intro steps
      rw [subtree, run_bind_ok (run_get _)]
      dsimp only
      rw [found]
      dsimp only
      rw [run_bind, run_mark, if_neg (by simp)]

end

theorem calls_le {limit : Nat} {walk : Walk (σ × List (NodeId × Tree))} (tracked : walk.Tracked)
    (bounded : walk.Bounded limit) : walk.state.2.length ≤ limit := by
  have indices : ((walk.state.2.map Prod.fst).map NodeId.index).Nodup :=
    tracked.nodup.map fun first second same => congrArg NodeId.mk same
  have inside : (walk.state.2.map Prod.fst).map NodeId.index ⊆ List.range limit := by
    intro index member
    obtain ⟨id, met, rfl⟩ := List.mem_map.mp member
    exact List.mem_range.mpr (bounded.marks id (tracked.marked id met))
  have few := (indices.subperm inside).length_le
  simpa using few

/-- For every tree, start and visitor, the nodes that the visitor is called for differ from one
another; and if it adds no nodes, the walk ends with at most as many calls as the tree has nodes. -/
theorem run_visits (visit : Visiting σ) (tree : Tree) (state : σ) (start : NodeId) :
    (∀ steps, run visit.visitor steps tree state start
        = ((run visit.noted.visitor steps tree (state, []) start).1,
          (run visit.noted.visitor steps tree (state, []) start).2.plain)
      ∧ ((run visit.noted.visitor steps tree (state, []) start).2.state.2.map Prod.fst).Nodup)
    ∧ (visit.Spare → ∃ result after, result ≠ .error .exhausted
      ∧ (∀ steps, 2 * tree.size ≤ steps →
        run visit.noted.visitor steps tree (state, []) start = (result, after))
      ∧ after.state.2.length ≤ tree.size) := by
  refine ⟨fun steps => ⟨run_noted visit steps tree state start,
    (tracked_run visit steps tree state start).nodup⟩, fun spare => ?_⟩
  obtain ⟨result, after, answers, advances, runs⟩ :=
    subtree_halts spare.noted tree (state, []) start
  have tracked := tracked_run visit (2 * tree.size) tree state start
  have ends := runs (2 * tree.size) (Nat.le_refl _)
  rw [run, ends] at tracked
  exact ⟨result, after, answers, runs, calls_le tracked advances.bounded⟩

-- Two blocks that hold one another, and a node that both of them hold.
def looped : Tree where
  source := ""
  root := ⟨0⟩
  nodes := #[{ shape := .block [⟨1⟩, ⟨2⟩], parent := some ⟨⟨1⟩, .statement⟩ },
    { shape := .block [⟨0⟩, ⟨2⟩], parent := some ⟨⟨0⟩, .statement⟩ },
    { shape := .raw "a", parent := some ⟨⟨1⟩, .statement⟩ }]

-- Puts every node in its place again, twice, with the root between.
def echoing : Visiting Unit :=
  fun id tree state => (.ok (.inserted [id, tree.root, id]), tree, state)

/-- Each of the three nodes is visited once. -/
theorem run_visits_looped : echoing.Spare
    ∧ ((run echoing.noted.visitor 6 looped ((), []) ⟨0⟩).2.state.2.map Prod.fst)
      = [⟨0⟩, ⟨1⟩, ⟨2⟩]
    ∧ ∃ result after, result ≠ .error .exhausted
      ∧ (∀ steps, 6 ≤ steps → run echoing.noted.visitor steps looped ((), []) ⟨0⟩ = (result, after))
      ∧ after.state.2.length ≤ 3 := by
  have spare : echoing.Spare := fun _ _ _ => Nat.le_refl _
  exact ⟨spare, by decide +kernel, (run_visits echoing looped () ⟨0⟩).2 spare⟩

end Walk

end Codemod
