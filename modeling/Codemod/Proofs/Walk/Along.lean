import Codemod.Proofs.Edit.Course
import Codemod.Traversal

/-!
One walk, step by step. What holds along every single step of a walk (a visit, an edit that the walk
carries out, a mark) holds along the walk as a whole. The relation also sees how the step ended, so
that it can say more of steps that come to their end than of those that stop.
-/

namespace Codemod.Walk

open Step

variable {σ α β : Type}

theorem run_mark (id : NodeId) (walk : Walk σ) :
    (mark id).run walk = if walk.visited.contains id then (.ok false, walk)
      else (.ok true, { walk with visited := walk.visited.insert id }) := by
  rw [mark, run_bind_ok (run_get walk)]
  split <;> rfl

theorem run_mark_fresh {id : NodeId} {walk : Walk σ} (fresh : ¬ walk.visited.contains id) :
    (mark id).run walk = (.ok true, { walk with visited := walk.visited.insert id }) := by
  rw [run_mark, if_neg fresh]

theorem run_carryOut (id : NodeId) (edit : Edit Unit) (walk : Walk σ) :
    (carryOut id edit).run walk = match edit.run walk.tree with
      | (.ok (), tree) => (.ok true, { walk with tree, changes := walk.changes + 1 })
      | (.error (.rejected error), tree) =>
          (.ok false, { walk with tree, errors := walk.errors ++ [(id, error)] })
      | (.error (.missing size index), tree) =>
          (.error (.crashed (.ofMissing size index)), { walk with tree }) := by
  rw [carryOut, run_bind_ok (run_get walk)]
  rcases edit.run walk.tree with ⟨(_ | _) | _, tree⟩ <;> rfl

theorem settle_unchanged {visitor : Visitor σ} {walk after : Walk σ} {id : NodeId}
    (visits : (visitor id).run walk = (.ok .unchanged, after)) (link : Option Link) (left : Nat) :
    (settle visitor link (left + 1) id).run walk = (.ok (.descend id), after) := by
  rw [settle, run_bind_ok visits]
  rfl

theorem settle_same {visitor : Visitor σ} {walk after : Walk σ} {id : NodeId}
    (visits : (visitor id).run walk = (.ok (.replaced id), after)) (link : Option Link)
    (left : Nat) : (settle visitor link (left + 1) id).run walk = (.ok (.descend id), after) := by
  rw [settle, run_bind_ok visits]
  dsimp only
  rw [if_pos rfl]
  rfl

theorem settle_refused {visitor : Visitor σ} {walk after : Walk σ} {current new : NodeId}
    {link : Option Link} {tree : Tree} {error : TreeError}
    (visits : (visitor current).run walk = (.ok (.replaced new), after)) (differ : new ≠ current)
    (refuses : (Edit.replaceAt link current new).run after.tree = (.error (.rejected error), tree))
    (left : Nat) :
    (settle visitor link (left + 1) current).run walk = (.ok (.descend current),
      { after with tree, errors := after.errors ++ [(current, error)] }) := by
  have carries : (carryOut current (Edit.replaceAt link current new)).run after
      = (.ok false, { after with tree, errors := after.errors ++ [(current, error)] }) := by
    rw [run_carryOut, refuses]
  rw [settle, run_bind_ok visits]
  dsimp only
  rw [if_neg differ, run_bind_ok carries, if_neg Bool.false_ne_true]
  rfl

/-- Where another node has taken the place, that one settles next, unless it was marked before. -/
theorem settle_replaced {visitor : Visitor σ} {walk after : Walk σ} {current new : NodeId}
    {link : Option Link} {tree : Tree}
    (visits : (visitor current).run walk = (.ok (.replaced new), after)) (differ : new ≠ current)
    (replaces : (Edit.replaceAt link current new).run after.tree = (.ok (), tree)) (left : Nat) :
    (settle visitor link (left + 1) current).run walk =
      if after.visited.contains new then
        (.ok .done, { after with tree, changes := after.changes + 1 })
      else (settle visitor link left new).run
        { after with
          tree, changes := after.changes + 1, visited := after.visited.insert new } := by
  have carries : (carryOut current (Edit.replaceAt link current new)).run after
      = (.ok true, { after with tree, changes := after.changes + 1 }) := by
    rw [run_carryOut, replaces]
  rw [settle, run_bind_ok visits]
  dsimp only
  rw [if_neg differ, run_bind_ok carries, if_pos rfl, run_bind, run_mark]
  by_cases seen : after.visited.contains new
  · rw [if_pos seen, if_pos seen]
    rfl
  · rw [if_neg seen, if_neg seen]
    rfl

/-- A visit to a node that stays goes on below it. -/
theorem visit_unchanged {visitor : Visitor σ} {walk after : Walk σ} {id : NodeId}
    (visits : (visitor id).run walk = (.ok .unchanged, after)) (link : Option Link) (steps : Nat) :
    (visitNode visitor (steps + 1) id link).run walk = (descend visitor steps id).run after := by
  have settles : (settle visitor link cascadeLimit id).run walk = (.ok (.descend id), after) :=
    settle_unchanged visits link 31
  rw [visitNode, run_bind_ok settles]

-- What a visit goes on with once its place has settled.
def onward (visitor : Visitor σ) (steps : Nat) (link : Option Link) : Settled → Walking σ Unit
  | .done => return
  | .descend current => descend visitor steps current
  | .inserted current nodes => nodes.forM fun node => do
      if node = current then descend visitor steps current
      else if ← mark node then visitNode visitor steps node link

theorem visitNode_succ (visitor : Visitor σ) (steps : Nat) (id : NodeId) (link : Option Link) :
    visitNode visitor (steps + 1) id link
      = settle visitor link cascadeLimit id >>= onward visitor steps link := by
  rw [visitNode]
  rfl

def Along (R : Walk σ → Except Stop Unit → Walk σ → Prop) (step : Walking σ α) : Prop :=
  ∀ walk, R walk ((step.run walk).1.map fun _ => ()) (step.run walk).2

inductive Carried : Edit Unit → Prop where
  | replaceAt (link : Option Link) (old new : NodeId) : Carried (.replaceAt link old new)
  | removeAt (link : Option Link) (id : NodeId) : Carried (.removeAt link id)
  | spliceAt (link : Option Link) (id : NodeId) (replacement : List NodeId) :
      Carried (.spliceAt link id replacement)

theorem carried_course {edit : Edit Unit} (carried : Carried edit) (tree : Tree) :
    Edit.Course tree (edit.run tree) := by
  cases carried with
  | replaceAt link old new => exact Edit.course_replaceAt link old new tree
  | removeAt link id => exact Edit.course_removeAt link id tree
  | spliceAt link id replacement => exact Edit.course_spliceAt link id replacement tree

/-- A relation that holds along every step a walk with the visitor is made of. -/
structure Respected (visitor : Visitor σ) (R : Walk σ → Except Stop Unit → Walk σ → Prop) :
    Prop where
  refl : ∀ walk result, R walk result walk
  trans : ∀ {before middle result after}, R before (.ok ()) middle → R middle result after →
    R before result after
  mark : ∀ walk id, R walk (.ok ()) { walk with visited := walk.visited.insert id }
  limit : ∀ walk id, R walk (.ok ()) { walk with cascadeLimited := walk.cascadeLimited ++ [id] }
  carryOut : ∀ id edit, Carried edit → Along R (carryOut id edit)
  visit : ∀ id, Along R (visitor id)

namespace Respected

variable {visitor : Visitor σ} {R : Walk σ → Except Stop Unit → Walk σ → Prop}

theorem bind (respected : Respected visitor R) {step : Walking σ α} {next : α → Walking σ β}
    (first : Along R step) (second : ∀ value, Along R (next value)) : Along R (step >>= next) := by
  intro walk
  have along := first walk
  generalize ran : step.run walk = result at along
  rcases result with ⟨stop | value, after⟩
  · rw [run_bind_error ran]
    exact along
  · rw [run_bind_ok ran]
    exact respected.trans along (second value after)

theorem pure (respected : Respected visitor R) (value : α) :
    Along R (Pure.pure value : Walking σ α) :=
  fun walk => respected.refl walk _

theorem throw (respected : Respected visitor R) (stop : Stop) :
    Along R (MonadExcept.throw stop : Walking σ α) :=
  fun walk => respected.refl walk _

theorem forM (respected : Respected visitor R) {step : α → Walking σ Unit}
    (each : ∀ value, Along R (step value)) (values : List α) : Along R (values.forM step) := by
  induction values with
  | nil => exact respected.pure ()
  | cons value rest ih => exact respected.bind (each value) fun _ => ih

theorem marks (respected : Respected visitor R) (id : NodeId) : Along R (Walk.mark id) := by
  intro walk
  rw [run_mark]
  split
  · exact respected.refl walk _
  · exact respected.mark walk id

theorem settle (respected : Respected visitor R) (link : Option Link) (left : Nat)
    (current : NodeId) : Along R (Walk.settle visitor link left current) := by
  induction left generalizing current with
  | zero => exact fun walk => respected.limit walk current
  | succ left ih =>
      rw [Walk.settle]
      refine respected.bind (respected.visit current) fun verdict => ?_
      cases verdict with
      | unchanged => exact respected.pure _
      | replaced new =>
          dsimp only
          split
          · exact respected.pure _
          · refine respected.bind (respected.carryOut current _ (.replaceAt link current new))
              fun made => ?_
            split
            · refine respected.bind (respected.marks new) fun fresh => ?_
              split
              · exact ih new
              · exact respected.pure _
            · exact respected.pure _
      | deleted =>
          refine respected.bind (respected.carryOut current _ (.removeAt link current)) fun made => ?_
          split <;> exact respected.pure _
      | inserted nodes =>
          refine respected.bind (respected.carryOut current _ (.spliceAt link current nodes))
            fun made => ?_
          split <;> exact respected.pure _

theorem onward (respected : Respected visitor R) {steps : Nat}
    (visits : ∀ id link, Along R (visitNode visitor steps id link))
    (descends : ∀ parent, Along R (Walk.descend visitor steps parent)) (link : Option Link)
    (settled : Settled) : Along R (Walk.onward visitor steps link settled) := by
  cases settled with
  | done => exact respected.pure ()
  | descend current => exact descends current
  | inserted current nodes =>
      refine respected.forM (fun node => ?_) nodes
      split
      · exact descends current
      · refine respected.bind (respected.marks node) fun fresh => ?_
        split
        · exact visits node link
        · exact respected.pure ()

theorem visits (respected : Respected visitor R) (steps : Nat) :
    (∀ id link, Along R (visitNode visitor steps id link))
      ∧ ∀ parent, Along R (Walk.descend visitor steps parent) := by
  -- The two recursions call each other with fewer steps, so they are followed together.
  induction steps with
  | zero => exact ⟨fun _ _ => respected.throw _, fun _ => respected.throw _⟩
  | succ steps ih =>
      obtain ⟨visitIh, descendIh⟩ := ih
      constructor
      · intro id link
        rw [visitNode_succ]
        exact respected.bind (respected.settle link cascadeLimit id)
          (respected.onward visitIh descendIh link)
      · intro parent walk
        rw [Walk.descend, run_bind_ok (run_get walk)]
        rcases walk.nextChild? parent with _ | ⟨slot, child⟩
        · exact respected.refl walk _
        · exact respected.bind (respected.marks child)
            (fun _ => respected.bind (visitIh child _) fun _ => descendIh parent) walk

theorem run (respected : Respected visitor R) (steps : Nat) (tree : Tree) (state : σ)
    (start : NodeId) :
    R { tree, state } (Walk.run visitor steps tree state start).1
      (Walk.run visitor steps tree state start).2 := by
  have along : Along R (subtree visitor steps start) := by
    intro walk
    rw [subtree, run_bind_ok (run_get walk)]
    dsimp only
    cases walk.tree.node? start with
    | none => exact respected.refl walk _
    | some node =>
        exact respected.bind (respected.marks start)
          (fun _ => (respected.visits steps).1 start node.parent) walk
  have whole := along { tree, state }
  rw [Walk.run]
  generalize (subtree visitor steps start).run { tree, state } = result at whole
  rcases result with ⟨stop | ⟨⟩, after⟩ <;> exact whole

end Respected

end Codemod.Walk
