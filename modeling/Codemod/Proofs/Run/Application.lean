import Codemod.Proofs.Edit.Rollback
import Codemod.Proofs.Walk.Along
import Codemod.Run

/-!
One rule tried in a transaction, and what follows from it for the rules of a pass and for a run.
Whatever was edited, a failure and a verdict that is refused both lead back to the tree as it was.
-/

namespace Codemod

theorem RuleStep.run_ofEdit {α : Type} (edit : Edit α) (tree : Tree) :
    (RuleStep.ofEdit edit).run tree = match edit.run tree with
      | (.ok value, edited) => (.ok value, edited)
      | (.error (.rejected error), edited) => (.error (.error (.tree error)), edited)
      | (.error (.missing size index), edited) =>
          (.error (.crash (.ofMissing size index)), edited) := by
  rw [ofEdit, Step.run_bind_ok (Step.run_get tree)]
  rcases edit.run tree with ⟨(error | ⟨size, index⟩) | value, edited⟩ <;> rfl

namespace Pass

section

variable (rule : Rule) (context : Context) (node : NodeId) (link : Option Link)
variable (anchor : Option Span)

theorem run_attempt (tree : Tree) :
    (attempt rule node context).run tree = match rule.accepts tree node context with
      | .error crash => (.error (.crash crash), tree)
      | .ok false => (.ok none, tree)
      | .ok true => match (rule.apply node context).run tree with
        | (.ok verdict, edited) => (.ok (some verdict), edited)
        | (.error failure, edited) => (.error failure, edited) := by
  have reads : (get : RuleStep Tree).run tree = (.ok tree, tree) := rfl
  rw [attempt, Step.run_bind_ok reads]
  rcases rule.accepts tree node context with crash | _ | _
  · rfl
  · rfl
  · dsimp only
    rw [Step.run_bind]
    rcases (rule.apply node context).run tree with ⟨_ | _, edited⟩ <;> rfl

theorem attempt_declined {tree edited : Tree}
    (ran : (attempt rule node context).run tree = (.ok none, edited)) : edited = tree := by
  rw [run_attempt] at ran
  split at ran
  · cases ran
  · cases ran
    rfl
  · split at ran <;> cases ran

/-- A rule works in a transaction of its own, whatever the journal was. -/
theorem applyRule_commit (tree : Tree) (log : Log) :
    applyRule rule context node link anchor tree.commit log
      = applyRule rule context node link anchor tree log := rfl

theorem applyRule_of_commit {tree other : Tree} (same : tree.commit = other.commit) (log : Log) :
    applyRule rule context node link anchor tree log
      = applyRule rule context node link anchor other log := by
  rw [← applyRule_commit rule context node link anchor tree,
    ← applyRule_commit rule context node link anchor other, same]

/-- What a rule does to the tree does not depend on the log. -/
theorem applyRule_log (tree : Tree) (log otherLog : Log) :
    (applyRule rule context node link anchor tree log).1
        = (applyRule rule context node link anchor tree otherLog).1
      ∧ (applyRule rule context node link anchor tree log).2.1
        = (applyRule rule context node link anchor tree otherLog).2.1 := by
  unfold applyRule
  rcases (attempt rule node context).run tree.checkpoint with ⟨failure | _ | verdict, edited⟩
  · exact ⟨rfl, rfl⟩
  · exact ⟨rfl, rfl⟩
  · dsimp only
    cases check edited verdict node link <;> exact ⟨rfl, rfl⟩

theorem applyRule_closed (tree : Tree) (log : Log) :
    (applyRule rule context node link anchor tree log).2.1.journal = none := by
  unfold applyRule
  rcases (attempt rule node context).run tree.checkpoint with ⟨failure | _ | verdict, edited⟩
  · exact edited.rollback_closed
  · rfl
  · dsimp only
    cases check edited verdict node link with
    | error error => exact edited.rollback_closed
    | ok done => rfl

end

/-- What holds along each application of a rule holds along an offer. -/
theorem offer_along {R : Tree → Tree → Prop} (ordered : Ordered R) (context : Context)
    (link : Option Link) (anchor : Option Span) {rules : List Rule}
    (each : ∀ rule ∈ rules, ∀ node tree log,
      R tree (applyRule rule context node link anchor tree log).2.1)
    (current : NodeId) (verdict : Verdict) (tree : Tree) (log : Log) :
    R tree (offer context link anchor rules current verdict tree log).2.1 := by
  induction rules generalizing current verdict tree log with
  | nil => exact ordered.refl tree
  | cons rule rest ih =>
      have applied := each rule List.mem_cons_self current tree log
      have later := ih fun rule member => each rule (List.mem_cons_of_mem _ member)
      unfold offer
      split
      · generalize applyRule rule context current link anchor tree log = answer at applied
        rcases answer with ⟨_ | new | _ | nodes, after, entries⟩
        · exact ordered.trans applied (later current verdict after entries)
        · dsimp only
          split
          · exact ordered.trans applied (later current verdict after entries)
          · exact ordered.trans applied (later new (.replaced new) after entries)
        · exact applied
        · exact applied
      · exact later current verdict tree log

end Pass

namespace Run

theorem closed_respected (rules : List Rule) (context : Context) :
    Walk.Respected (Pass.visitor rules context)
      (fun before _ after => before.tree.journal = none → after.tree.journal = none) where
  refl _ _ := id
  trans first second := second ∘ first
  mark _ _ := id
  limit _ _ := id
  carryOut id edit carried := by
    intro walk closed
    have still := Tree.closed_edits.course (Walk.carried_course carried walk.tree) closed
    rw [Walk.run_carryOut]
    generalize edit.run walk.tree = result at still
    rcases result with ⟨(error | ⟨size, index⟩) | ⟨⟩, tree⟩ <;> exact still
  visit node := by
    -- Rules are applied in transactions of their own.
    intro walk closed
    exact Pass.offer_along Tree.closed_edits.toOrdered context _ _
      (fun rule _ node tree log _ => Pass.applyRule_closed rule context node _ _ tree log)
      node .unchanged walk.tree walk.state closed

theorem passes_closed (rules : List Rule) (steps : Nat) (context : Context) (left : Nat)
    (outcome : RunOutcome) {tree : Tree} (closed : tree.journal = none) :
    (passes rules steps context left outcome tree).2.journal = none := by
  induction left generalizing outcome tree with
  | zero => exact closed
  | succ left ih =>
      have walked := (closed_respected rules context).run steps tree outcome.log tree.root closed
      rw [passes]
      generalize Walk.run (Pass.visitor rules context) steps tree outcome.log tree.root = result
        at walked
      rcases result with ⟨stop | ⟨⟩, walk⟩
      · exact walked
      · dsimp only
        split
        · exact walked
        · exact ih _ walked

theorem applications_reports (diagnostics : List Diagnostic) (log : Log) :
    (diagnostics.foldl Log.report log).applications = log.applications := by
  induction diagnostics generalizing log with
  | nil => rfl
  | cons diagnostic rest ih => exact ih (log.report diagnostic)

-- The outcome with a note if the passes were used up.
def concluded (outcome : RunOutcome) : RunOutcome :=
  if outcome.converged then outcome
  else
    let diagnostic : Diagnostic :=
      { kind := .nonConvergence
        message := s!"tree still changing after {outcome.passes} passes" }
    { outcome with log := outcome.log.report diagnostic }

theorem concluded_of_converged {outcome : RunOutcome} (converged : outcome.converged = true) :
    concluded outcome = outcome :=
  if_pos converged

section

variable (outcome : RunOutcome)

@[simp] theorem concluded_converged : (concluded outcome).converged = outcome.converged := by
  unfold concluded
  split <;> rfl

@[simp] theorem concluded_passes : (concluded outcome).passes = outcome.passes := by
  unfold concluded
  split <;> rfl

@[simp] theorem concluded_editingPasses :
    (concluded outcome).editingPasses = outcome.editingPasses := by
  unfold concluded
  split <;> rfl

@[simp] theorem concluded_applications :
    (concluded outcome).log.applications = outcome.log.applications := by
  unfold concluded
  split <;> rfl

end

theorem run_eq (rules : List Rule) (options : RunOptions) (context : Context) (tree : Tree) :
    run rules options context tree =
      let ended := passes rules options.steps context (max options.maxPasses 1) {} tree
      (ended.1.map concluded, ended.2) := by
  unfold run concluded
  dsimp only
  rcases passes rules options.steps context (max options.maxPasses 1) {} tree
    with ⟨stop | outcome, after⟩
  · rfl
  · dsimp only [Except.map]
    split <;> rfl

theorem run_eq_ok {rules : List Rule} {options : RunOptions} {context : Context} {tree after : Tree}
    {outcome : RunOutcome} (ran : run rules options context tree = (.ok outcome, after)) :
    ∃ ended, passes rules options.steps context (max options.maxPasses 1) {} tree = (.ok ended, after)
      ∧ outcome = concluded ended := by
  rw [run_eq] at ran
  rcases made : passes rules options.steps context (max options.maxPasses 1) {} tree
    with ⟨stop | ended, finished⟩ <;> rw [made] at ran
  · cases ran
  · cases ran
    exact ⟨ended, rfl, rfl⟩

end Run

end Codemod
