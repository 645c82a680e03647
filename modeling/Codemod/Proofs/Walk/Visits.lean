import Codemod.Proofs.Walk.Pair
import Mathlib.Data.List.Nodup

/-!
The visits of one walk. A visitor has the tree and its own state in hand, nothing of the walk; to see
whom it was called for, the calls are written down beside its state. Every call is for a node that
was marked just before and is not on record, whatever the visitor does to the tree, so that no node
is visited twice.
-/

namespace Codemod

open Step

/-- What is done at a node: with the tree and a state in hand, it answers or crashes. -/
abbrev Visiting (σ : Type) := NodeId → Tree → σ → Except Crash Verdict × Tree × σ

namespace Visiting

variable {σ : Type} (visit : Visiting σ)

def visitor : Visitor σ := fun id => do
  let walk ← get
  let (answer, tree, state) := visit id walk.tree walk.state
  set { walk with tree, state }
  match answer with
  | .ok verdict => return verdict
  | .error crash => throw (.crashed crash)

-- The same with a record of its calls: the node, and the tree as it was handed over.
def noted : Visiting (σ × List (NodeId × Tree)) := fun id tree both =>
  let (answer, after, state) := visit id tree both.1
  (answer, after, state, both.2 ++ [(id, tree)])

theorem run_visitor (id : NodeId) (walk : Walk σ) :
    (visit.visitor id).run walk = ((visit id walk.tree walk.state).1.mapError Stop.crashed,
      { walk with
        tree := (visit id walk.tree walk.state).2.1
        state := (visit id walk.tree walk.state).2.2 }) := by
  rw [visitor, run_bind_ok (run_get walk)]
  rcases visit id walk.tree walk.state with ⟨crash | verdict, tree, state⟩ <;> rfl

end Visiting

namespace Walk

variable {σ : Type}

def plain (walk : Walk (σ × List (NodeId × Tree))) : Walk σ :=
  { walk with state := walk.state.1 }

theorem shared_plain :
    Shared (fun (noted : Walk (σ × List (NodeId × Tree))) bare => bare = noted.plain)
      (fun _ => False) where
  mark id := by
    refine ⟨fun _ spoilt => spoilt, ?_⟩
    rintro walk _ rfl
    have seen : walk.plain.visited.contains id = walk.visited.contains id := rfl
    right
    rw [run_mark, run_mark, seen]
    split <;> exact ⟨rfl, rfl⟩
  limit id := by
    refine ⟨fun _ spoilt => spoilt, ?_⟩
    rintro walk _ rfl
    exact Or.inr ⟨rfl, rfl⟩
  carryOut id edit carried := by
    refine ⟨fun _ spoilt => spoilt, ?_⟩
    rintro walk _ rfl
    have trees : walk.plain.tree = walk.tree := rfl
    right
    rw [run_carryOut, run_carryOut, trees]
    rcases edit.run walk.tree with ⟨(error | ⟨size, index⟩) | ⟨⟩, tree⟩ <;> exact ⟨rfl, rfl⟩
  child := by
    rintro walk _ rfl parent
    rfl

/-- Writing the calls down changes nothing. -/
theorem run_noted (visit : Visiting σ) (steps : Nat) (tree : Tree) (state : σ) (start : NodeId) :
    run visit.visitor steps tree state start
      = ((run visit.noted.visitor steps tree (state, []) start).1,
        (run visit.noted.visitor steps tree (state, []) start).2.plain) := by
  have visits : ∀ id, Paired (fun noted bare => bare = noted.plain) (fun _ => False)
      (visit.noted.visitor id) (visit.visitor id) := by
    intro id
    refine ⟨fun _ spoilt => spoilt, ?_⟩
    rintro walk _ rfl
    right
    rw [Visiting.run_visitor, Visiting.run_visitor]
    exact ⟨rfl, rfl⟩
  obtain ⟨ended, after⟩ := (run_paired shared_plain visits steps rfl rfl start).resolve_left id
  rw [ended, ← after]

structure Tracked (walk : Walk (σ × List (NodeId × Tree))) : Prop where
  nodup : (walk.state.2.map Prod.fst).Nodup
  marked : ∀ id ∈ walk.state.2.map Prod.fst, walk.visited.contains id

structure Awaits (walk : Walk (σ × List (NodeId × Tree))) (id : NodeId) : Prop where
  tracked : walk.Tracked
  marked : walk.visited.contains id
  unmet : id ∉ walk.state.2.map Prod.fst

theorem Tracked.mark {walk : Walk (σ × List (NodeId × Tree))} (tracked : walk.Tracked)
    {id : NodeId} (fresh : walk.visited.contains id = false) :
    Awaits { walk with visited := walk.visited.insert id } id where
  tracked := ⟨tracked.nodup, fun other met => by simp [tracked.marked other met]⟩
  marked := by simp
  unmet met := by
    rw [tracked.marked id met] at fresh
    cases fresh

theorem forM_cons {α : Type} (step : α → Walking σ Unit) (value : α) (rest : List α) :
    (value :: rest).forM step = step value >>= fun _ => rest.forM step := rfl

theorem of_nextChild? {walk : Walk σ} {parent : NodeId} {child : Slot × NodeId}
    (next : walk.nextChild? parent = some child) : child ∈ walk.tree.children parent
      ∧ walk.visited.contains child.2 = false
      ∧ walk.tree.parent? child.2 = some ⟨parent, child.1⟩ := by
  have found := List.find?_some next
  simp only [Bool.and_eq_true, Bool.not_eq_true', beq_iff_eq] at found
  exact ⟨List.mem_of_find?_eq_some next, found.1, found.2⟩

section

variable {walk : Walk (σ × List (NodeId × Tree))} (visit : Visiting σ)

theorem tracked_carryOut (tracked : walk.Tracked) (id : NodeId) (edit : Edit Unit) :
    ((carryOut id edit).run walk).2.Tracked := by
  rw [run_carryOut]
  rcases edit.run walk.tree with ⟨(error | ⟨size, index⟩) | ⟨⟩, tree⟩ <;>
    exact ⟨tracked.nodup, tracked.marked⟩

theorem tracked_visit {id : NodeId} (awaits : walk.Awaits id) :
    ((visit.noted.visitor id).run walk).2.Tracked := by
  obtain ⟨tracked, marked, unmet⟩ := awaits
  have record : ((visit.noted.visitor id).run walk).2.state.2.map Prod.fst
      = walk.state.2.map Prod.fst ++ [id] := by
    rw [Visiting.run_visitor]
    exact List.map_append
  have marks : ((visit.noted.visitor id).run walk).2.visited = walk.visited := by
    rw [Visiting.run_visitor]
  constructor
  · rw [record]
    refine List.nodup_append.mpr ⟨tracked.nodup, List.nodup_singleton id, ?_⟩
    rintro other met last member rfl
    cases List.mem_singleton.mp member
    exact unmet met
  · rw [record, marks]
    intro other met
    rcases List.mem_append.mp met with before | last
    · exact tracked.marked other before
    · cases List.mem_singleton.mp last
      exact marked

theorem tracked_settle {link : Option Link} {current : NodeId} (awaits : walk.Awaits current)
    (left : Nat) : ((settle visit.noted.visitor link left current).run walk).2.Tracked := by
  induction left generalizing walk current with
  | zero => exact ⟨awaits.tracked.nodup, awaits.tracked.marked⟩
  | succ left ih =>
      rw [settle]
      apply run_bind_holds (tracked_visit visit awaits)
      intro verdict after _ visited
      cases verdict with
      | unchanged => exact visited
      | replaced new =>
          dsimp only
          split
          · exact visited
          · apply run_bind_holds (tracked_carryOut visited current _)
            intro made middle _ still
            cases made with
            | false => exact still
            | true =>
                rw [if_pos rfl, run_bind, run_mark]
                by_cases seen : middle.visited.contains new
                · rw [if_pos seen]
                  exact still
                · rw [if_neg seen]
                  exact ih (still.mark (Bool.eq_false_iff.mpr seen))
      | deleted =>
          apply run_bind_holds (tracked_carryOut visited current _)
          intro made middle _ still
          cases made <;> exact still
      | inserted nodes =>
          apply run_bind_holds (tracked_carryOut visited current _)
          intro made middle _ still
          cases made <;> exact still

theorem tracked_visits (steps : Nat) :
    (∀ {walk : Walk (σ × List (NodeId × Tree))} {id : NodeId} {link : Option Link},
        walk.Awaits id → ((visitNode visit.noted.visitor steps id link).run walk).2.Tracked)
      ∧ ∀ {walk : Walk (σ × List (NodeId × Tree))} {parent : NodeId}, walk.Tracked →
        ((descend visit.noted.visitor steps parent).run walk).2.Tracked := by
  -- The two recursions call each other with fewer steps, so they are followed together.
  induction steps with
  | zero => exact ⟨fun awaits => awaits.tracked, fun tracked => tracked⟩
  | succ steps ih =>
      obtain ⟨visitIh, descendIh⟩ := ih
      constructor
      · intro walk id link awaits
        rw [visitNode]
        apply run_bind_holds (tracked_settle visit awaits cascadeLimit)
        intro settled after ran tracked
        clear ran
        cases settled with
        | done => exact tracked
        | descend current => exact descendIh tracked
        | inserted current nodes =>
            dsimp only
            induction nodes generalizing after with
            | nil => exact tracked
            | cons node rest restIh =>
                rw [forM_cons]
                refine run_bind_holds ?_ fun _ middle _ still => restIh middle still
                split
                · exact descendIh tracked
                · rw [run_bind, run_mark]
                  by_cases seen : after.visited.contains node
                  · rw [if_pos seen]
                    exact tracked
                  · rw [if_neg seen]
                    exact visitIh (tracked.mark (Bool.eq_false_iff.mpr seen))
      · intro walk parent tracked
        rw [descend, run_bind_ok (run_get walk)]
        cases next : walk.nextChild? parent with
        | none => exact tracked
        | some child =>
            obtain ⟨_, unseen, _⟩ := of_nextChild? next
            dsimp only
            rw [run_bind, run_mark, if_neg (Bool.eq_false_iff.mp unseen)]
            refine run_bind_holds (visitIh (tracked.mark unseen)) ?_
            exact fun _ after _ still => descendIh still

theorem tracked_run (steps : Nat) (tree : Tree) (state : σ) (start : NodeId) :
    (run visit.noted.visitor steps tree (state, []) start).2.Tracked := by
  have empty : ({ tree, state := (state, []) } : Walk (σ × List (NodeId × Tree))).Tracked :=
    ⟨List.nodup_nil, nofun⟩
  rw [run, subtree, run_bind_ok (run_get _)]
  dsimp only
  cases tree.node? start with
  | none => exact empty
  | some node =>
      dsimp only
      rw [run_bind, run_mark, if_neg (by simp)]
      exact (tracked_visits visit steps).1 (empty.mark rfl)

end

end Walk

end Codemod
