import Codemod.Proofs.Edit.Blind
import Codemod.Proofs.Walk.Along

/-!
Two walks side by side. If two visitors, handed walks that agree, answer alike and leave walks that
agree again, then whole walks with them do, as long as the steps of the walk itself keep the
agreement. Mostly it is on the tree, but for the journal, and on everything noted so far (`Alike`).
It may be given up for good once the first visitor has reached a state that is called `spoiled`; this
is how an assumption on all that happens during a walk enters.
-/

namespace Codemod.Walk

open Step

variable {σ₁ σ₂ α β : Type}

/-- Two steps that answer alike and keep walks in agreement, unless the first one ends spoiled. -/
structure Paired (A : Walk σ₁ → Walk σ₂ → Prop) (spoiled : σ₁ → Prop) (left : Walking σ₁ α)
    (right : Walking σ₂ α) : Prop where
  lasting : ∀ walk, spoiled walk.state → spoiled (left.run walk).2.state
  alike : ∀ {walk other}, A walk other → spoiled (left.run walk).2.state
    ∨ ((left.run walk).1 = (right.run other).1 ∧ A (left.run walk).2 (right.run other).2)

/-- An agreement that the steps of the walk itself keep, and that leads to the same children. -/
structure Shared (A : Walk σ₁ → Walk σ₂ → Prop) (spoiled : σ₁ → Prop) : Prop where
  mark : ∀ id, Paired A spoiled (mark id) (mark id)
  limit : ∀ id, Paired A spoiled
    (modify fun walk => { walk with cascadeLimited := walk.cascadeLimited ++ [id] })
    (modify fun walk => { walk with cascadeLimited := walk.cascadeLimited ++ [id] })
  carryOut : ∀ id {edit}, Carried edit → Paired A spoiled (carryOut id edit) (carryOut id edit)
  child : ∀ {left right}, A left right → ∀ parent, left.nextChild? parent = right.nextChild? parent

variable {A : Walk σ₁ → Walk σ₂ → Prop} {spoiled : σ₁ → Prop}

theorem paired_bind {left : Walking σ₁ α} {right : Walking σ₂ α} {leftNext : α → Walking σ₁ β}
    {rightNext : α → Walking σ₂ β} (first : Paired A spoiled left right)
    (second : ∀ value, Paired A spoiled (leftNext value) (rightNext value)) :
    Paired A spoiled (left >>= leftNext) (right >>= rightNext) := by
  constructor
  · intro walk spoilt
    have still := first.lasting walk spoilt
    generalize ran : left.run walk = result at still
    rcases result with ⟨stop | value, after⟩
    · rw [run_bind_error ran]
      exact still
    · rw [run_bind_ok ran]
      exact (second value).lasting after still
  · intro walk other alike
    have paired := first.alike alike
    generalize ran : left.run walk = result at paired
    generalize otherRan : right.run other = otherResult at paired
    rcases result with ⟨stop | value, after⟩
    · rw [run_bind_error ran]
      rcases paired with spoilt | ⟨same, still⟩
      · exact Or.inl spoilt
      · right
        rcases otherResult with ⟨_, otherAfter⟩
        cases same
        rw [run_bind_error otherRan]
        exact ⟨rfl, still⟩
    · rw [run_bind_ok ran]
      rcases paired with spoilt | ⟨same, still⟩
      · exact Or.inl ((second value).lasting after spoilt)
      · rcases otherResult with ⟨_, otherAfter⟩
        cases same
        rw [run_bind_ok otherRan]
        exact (second value).alike still

theorem paired_pure (value : α) :
    Paired A spoiled (pure value : Walking σ₁ α) (pure value) where
  lasting _ spoilt := spoilt
  alike alike := Or.inr ⟨rfl, alike⟩

theorem paired_throw (stop : Stop) :
    Paired A spoiled (throw stop : Walking σ₁ α) (throw stop) where
  lasting _ spoilt := spoilt
  alike alike := Or.inr ⟨rfl, alike⟩

theorem paired_forM {left : α → Walking σ₁ Unit} {right : α → Walking σ₂ Unit}
    (each : ∀ value, Paired A spoiled (left value) (right value)) (values : List α) :
    Paired A spoiled (values.forM left) (values.forM right) := by
  induction values with
  | nil => exact paired_pure ()
  | cons value rest ih => exact paired_bind (each value) fun _ => ih

section

variable {visitor : Visitor σ₁} {other : Visitor σ₂} (shared : Shared A spoiled)
variable (visits : ∀ id, Paired A spoiled (visitor id) (other id))

include shared visits

theorem paired_settle (link : Option Link) (left : Nat) (current : NodeId) :
    Paired A spoiled (settle visitor link left current) (settle other link left current) := by
  induction left generalizing current with
  | zero => exact paired_bind (shared.limit current) fun _ => paired_pure _
  | succ left ih =>
      rw [settle, settle]
      refine paired_bind (visits current) fun verdict => ?_
      cases verdict with
      | unchanged => exact paired_pure _
      | replaced new =>
          dsimp only
          split
          · exact paired_pure _
          · refine paired_bind (shared.carryOut current (.replaceAt link current new))
              fun made => ?_
            split
            · refine paired_bind (shared.mark new) fun fresh => ?_
              split
              · exact ih new
              · exact paired_pure _
            · exact paired_pure _
      | deleted =>
          refine paired_bind (shared.carryOut current (.removeAt link current)) fun made => ?_
          split <;> exact paired_pure _
      | inserted nodes =>
          refine paired_bind (shared.carryOut current (.spliceAt link current nodes)) fun made => ?_
          split <;> exact paired_pure _

theorem paired_visit (steps : Nat) :
    (∀ id link, Paired A spoiled (visitNode visitor steps id link) (visitNode other steps id link))
      ∧ ∀ parent, Paired A spoiled (descend visitor steps parent) (descend other steps parent) := by
  -- Both recursions of the walk take fewer steps, so they are followed together.
  induction steps with
  | zero => exact ⟨fun _ _ => paired_throw _, fun _ => paired_throw _⟩
  | succ steps ih =>
      obtain ⟨visitIh, descendIh⟩ := ih
      have below : ∀ parent slot child, Paired A spoiled
          (do
            let _ ← mark child
            visitNode visitor steps child (some ⟨parent, slot⟩)
            descend visitor steps parent)
          (do
            let _ ← mark child
            visitNode other steps child (some ⟨parent, slot⟩)
            descend other steps parent) :=
        fun parent slot child => paired_bind (shared.mark child) fun _ =>
          paired_bind (visitIh child _) fun _ => descendIh parent
      constructor
      · intro id link
        rw [visitNode, visitNode]
        refine paired_bind (paired_settle shared visits link cascadeLimit id) fun settled => ?_
        cases settled with
        | done => exact paired_pure ()
        | descend current => exact descendIh current
        | inserted current nodes =>
            refine paired_forM (fun node => ?_) nodes
            split
            · exact descendIh current
            · refine paired_bind (shared.mark node) fun fresh => ?_
              split
              · exact visitIh node link
              · exact paired_pure ()
      · intro parent
        constructor
        · intro walk spoilt
          rw [descend, run_bind_ok (run_get walk)]
          rcases walk.nextChild? parent with _ | ⟨slot, child⟩
          · exact spoilt
          · exact (below parent slot child).lasting walk spoilt
        · intro walk other alike
          rw [descend, descend, run_bind_ok (run_get walk), run_bind_ok (run_get other),
            ← shared.child alike]
          rcases walk.nextChild? parent with _ | ⟨slot, child⟩
          · exact Or.inr ⟨rfl, alike⟩
          · exact (below parent slot child).alike alike

theorem run_paired (steps : Nat) {tree otherTree : Tree} {state : σ₁} {otherState : σ₂}
    (agree : A { tree, state } { tree := otherTree, state := otherState })
    (nodes : tree.nodes = otherTree.nodes) (start : NodeId) :
    spoiled (run visitor steps tree state start).2.state
      ∨ ((run visitor steps tree state start).1 = (run other steps otherTree otherState start).1
        ∧ A (run visitor steps tree state start).2
          (run other steps otherTree otherState start).2) := by
  unfold run subtree
  rw [run_bind_ok (run_get _), run_bind_ok (run_get _)]
  have found : tree.node? start = otherTree.node? start := by rw [Tree.node?, Tree.node?, nodes]
  have sizes : tree.size = otherTree.size := by rw [Tree.size, Tree.size, nodes]
  dsimp only
  rw [found, sizes]
  cases otherTree.node? start with
  | none => exact (paired_throw _).alike agree
  | some node =>
      exact (paired_bind (shared.mark start)
        fun _ => (paired_visit shared visits steps).1 start node.parent).alike agree

end

/-- Walks that agree on everything but the journal, with related states of their visitors. -/
structure Alike (S : σ₁ → σ₂ → Prop) (left : Walk σ₁) (right : Walk σ₂) : Prop where
  tree : left.tree.commit = right.tree.commit
  state : S left.state right.state
  visited : left.visited = right.visited
  changes : left.changes = right.changes
  errors : left.errors = right.errors
  cascadeLimited : left.cascadeLimited = right.cascadeLimited

variable {S : σ₁ → σ₂ → Prop}

theorem paired_mark (id : NodeId) : Paired (Alike S) spoiled (mark id) (mark id) := by
  constructor
  · intro walk spoilt
    rw [run_mark]
    split <;> exact spoilt
  · intro walk other alike
    right
    rw [run_mark, run_mark, ← alike.visited]
    split
    · exact ⟨rfl, alike⟩
    · exact ⟨rfl, { alike with visited := rfl }⟩

theorem blind_of_carried {edit : Edit Unit} (carried : Carried edit) : Edit.Blind edit := by
  cases carried with
  | replaceAt link old new => exact Edit.blind_replaceAt link old new
  | removeAt link id => exact Edit.blind_removeAt link id
  | spliceAt link id replacement => exact Edit.blind_spliceAt link id replacement

theorem paired_carryOut {edit : Edit Unit} (blind : Edit.Blind edit) (id : NodeId) :
    Paired (Alike S) spoiled (carryOut id edit) (carryOut id edit) := by
  constructor
  · intro walk spoilt
    rw [run_carryOut]
    split <;> exact spoilt
  · intro walk other alike
    right
    have same : edit.run walk.tree.commit = edit.run other.tree.commit := by rw [alike.tree]
    rw [blind walk.tree, blind other.tree] at same
    rw [run_carryOut, run_carryOut]
    generalize edit.run walk.tree = ran at same ⊢
    generalize edit.run other.tree = otherRan at same ⊢
    rcases ran with ⟨result, tree⟩
    rcases otherRan with ⟨otherResult, otherTree⟩
    obtain ⟨rfl, trees⟩ := Prod.mk.inj same
    rcases result with (error | ⟨size, index⟩) | ⟨⟩
    · exact ⟨rfl, { alike with tree := trees, errors := congrArg (· ++ [(id, error)]) alike.errors }⟩
    · exact ⟨rfl, { alike with tree := trees }⟩
    · exact ⟨rfl, { alike with tree := trees, changes := congrArg (· + 1) alike.changes }⟩

theorem nextChild?_alike {left : Walk σ₁} {right : Walk σ₂} (alike : Alike S left right)
    (parent : NodeId) : left.nextChild? parent = right.nextChild? parent := by
  have nodes := Tree.nodes_of_commit alike.tree
  simp only [nextChild?, Tree.children, Tree.shape?, Tree.parent?, Tree.node?, nodes, alike.visited]

theorem shared_alike (S : σ₁ → σ₂ → Prop) (spoiled : σ₁ → Prop) : Shared (Alike S) spoiled where
  mark := paired_mark
  limit id := ⟨fun _ spoilt => spoilt, fun alike => Or.inr ⟨rfl,
    { alike with cascadeLimited := congrArg (· ++ [id]) alike.cascadeLimited }⟩⟩
  carryOut id _ carried := paired_carryOut (blind_of_carried carried) id
  child := nextChild?_alike

/-- Walks over trees that agree but for the journal end alike, or the first one ends spoiled. -/
theorem run_alike {visitor : Visitor σ₁} {other : Visitor σ₂}
    (visits : ∀ id, Paired (Alike S) spoiled (visitor id) (other id)) (steps : Nat)
    {tree otherTree : Tree} (trees : tree.commit = otherTree.commit)
    (state : σ₁) {otherState : σ₂} (states : S state otherState) (start : NodeId) :
    spoiled (run visitor steps tree state start).2.state
      ∨ ((run visitor steps tree state start).1 = (run other steps otherTree otherState start).1
        ∧ Alike S (run visitor steps tree state start).2
          (run other steps otherTree otherState start).2) :=
  run_paired (shared_alike S spoiled) visits steps ⟨trees, states, rfl, rfl, rfl, rfl⟩
    (Tree.nodes_of_commit trees) start

end Codemod.Walk
