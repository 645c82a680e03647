import Codemod.Proofs.Print.Intact
import Codemod.Proofs.Run.Application
import Codemod.SourceUnit

/-!
A run without editing passes may go unprinted. Rules are only asked to change the tree through edits:
they may add nodes, edit and fail, or have their verdicts refused. If the first pass ends with the
revision it began with, then all that can be reached is as it was read, and prints as the source.
-/

namespace Codemod

/-- A step that changes the tree through edits only, in transactions that others open and close. It
may pass over edits that were refused and fail when it likes; an id that the arena does not have ends
it. -/
def RuleStep.Edits {α : Type} (step : RuleStep α) : Prop :=
  ∀ tree, ∃ operations, (step.run tree).2 = tree.edited operations
    ∧ ∀ value, (step.run tree).1 = .ok value → tree.Answers operations

def Rule.Edits (rule : Rule) : Prop :=
  ∀ node context, (rule.apply node context).Edits

theorem Tree.answers_append {tree : Tree} {first second : List Operation} :
    tree.Answers (first ++ second) ↔ tree.Answers first ∧ (tree.edited first).Answers second := by
  induction first generalizing tree with
  | nil => simp [Tree.Answers]
  | cons operation rest ih => simp [Tree.Answers, ih, and_assoc]

theorem Edit.run_discard {α : Type} (edit : Edit α) (tree : Tree) :
    (discard edit : Edit Unit).run tree = ((edit.run tree).1.map fun _ => (), (edit.run tree).2) := by
  have unrolled : (discard edit : Edit Unit) = edit >>= fun _ => pure () := rfl
  rw [unrolled, Step.run_bind]
  rcases edit.run tree with ⟨fault | value, after⟩ <;> rfl

namespace RuleStep

variable {α β : Type}

theorem edits_pure (value : α) : Edits (pure value) :=
  fun _ => ⟨[], rfl, fun _ _ => trivial⟩

theorem edits_throw (failure : Failure) : Edits (throw failure : RuleStep α) :=
  fun _ => ⟨[], rfl, nofun⟩

theorem edits_get : Edits get :=
  fun _ => ⟨[], rfl, fun _ _ => trivial⟩

theorem edits_bind {step : RuleStep α} {next : α → RuleStep β} (first : step.Edits)
    (second : ∀ value, (next value).Edits) : Edits (step >>= next) := by
  intro tree
  obtain ⟨operations, edited, answers⟩ := first tree
  generalize ran : step.run tree = result at edited answers
  rcases result with ⟨failure | value, after⟩
  · rw [Step.run_bind_error ran]
    exact ⟨operations, edited, nofun⟩
  · rw [Step.run_bind_ok ran]
    obtain ⟨more, later, also⟩ := second value after
    have made : after = tree.edited operations := edited
    subst made
    refine ⟨operations ++ more, ?_, ?_⟩
    · rw [later, Tree.edited_append]
    · intro result ended
      exact Tree.answers_append.mpr ⟨answers value rfl, also result ended⟩

/-- An edit that also gives a value, such as the id of a new node. -/
theorem edits_ofEdit {edit : Edit α} (operation : Operation)
    (same : ∀ tree, operation.run.run tree = ((edit.run tree).1.map fun _ => (), (edit.run tree).2)) :
    (ofEdit edit).Edits := by
  intro tree
  have ran := same tree
  rw [run_ofEdit]
  refine ⟨[operation], ?_⟩
  rw [Tree.edited_cons, Tree.edited_nil, Operation.after, ran]
  generalize edit.run tree = result at ran
  rcases result with ⟨(error | ⟨size, index⟩) | value, edited⟩
  · exact ⟨rfl, nofun⟩
  · exact ⟨rfl, nofun⟩
  · refine ⟨rfl, fun _ _ => ⟨?_, trivial⟩⟩
    intro size index stops
    rw [ran] at stops
    cases stops

theorem edits_setName (id : NodeId) (value : String) : (ofEdit (Edit.setName id value)).Edits := by
  apply edits_ofEdit (.setName id value)
  intro tree
  rcases ran : (Edit.setName id value).run tree with ⟨fault | ⟨⟩, after⟩ <;> exact ran

end RuleStep

namespace Pass

variable {rule : Rule} (context : Context) (node : NodeId)

theorem attempt_edits (edits : rule.Edits) : (attempt rule node context).Edits := by
  refine RuleStep.edits_bind RuleStep.edits_get fun tree => ?_
  rcases rule.accepts tree node context with crash | _ | _
  · exact RuleStep.edits_throw _
  · exact RuleStep.edits_pure _
  · exact RuleStep.edits_bind (edits node context) fun _ => RuleStep.edits_pure _

/-- A transaction counts what it changes, whether it is committed or rolled back: rolling back also
puts back the revision. -/
theorem applyRule_steady (edits : rule.Edits) (link : Option Link) (anchor : Option Span)
    (tree : Tree) (log : Log) :
    tree.Steady (applyRule rule context node link anchor tree log).2.1 := by
  have committed : ∀ operations, tree.checkpoint.Answers operations →
      tree.Steady (tree.checkpoint.edited operations).commit := by
    intro operations answers
    have opened : tree.Steady tree.checkpoint := Tree.steady_of_commit rfl
    exact (opened.trans (Tree.steady_edited answers)).trans (Tree.steady_of_commit rfl)
  have undone : ∀ operations, tree.Steady (tree.checkpoint.edited operations).rollback := by
    intro operations
    rw [Tree.rollback_edited]
    exact Tree.steady_of_commit rfl
  obtain ⟨operations, edited, answers⟩ := attempt_edits context node edits tree.checkpoint
  unfold applyRule
  generalize (attempt rule node context).run tree.checkpoint = result at edited answers
  rcases result with ⟨ended, after⟩
  have made : after = tree.checkpoint.edited operations := edited
  subst made
  rcases ended with failure | _ | verdict
  · exact undone operations
  · exact committed operations (answers none rfl)
  · dsimp only
    cases check (tree.checkpoint.edited operations) verdict node link with
    | error error => exact undone operations
    | ok done => exact committed operations (answers (some verdict) rfl)

end Pass

theorem Walk.carryOut_steady {σ : Type} {edit : Edit Unit} (carried : Carried edit) (id : NodeId)
    (walk : Walk σ) (ended : ((carryOut id edit).run walk).1.map (fun _ => ()) = .ok ()) :
    walk.tree.Steady ((carryOut id edit).run walk).2.tree
      ∧ ((carryOut id edit).run walk).2.state = walk.state := by
  have steady := Tree.steady_course (carried_course carried walk.tree)
  rw [run_carryOut] at ended ⊢
  generalize edit.run walk.tree = result at steady ended
  rcases result with ⟨(error | ⟨size, index⟩) | ⟨⟩, tree⟩
  · exact ⟨steady nofun, rfl⟩
  · -- A missing id stops the walk, so nothing is asked of it.
    cases ended
  · exact ⟨steady nofun, rfl⟩

namespace Pass

theorem steady_respected (context : Context) {rules : List Rule} (edits : ∀ rule ∈ rules, rule.Edits) :
    Walk.Respected (visitor rules context)
      (fun before result after => result = .ok () → before.tree.Steady after.tree) where
  refl walk _ _ := Tree.steady_ordered.refl walk.tree
  trans first second ended := (first rfl).trans (second ended)
  mark walk _ _ := Tree.steady_ordered.refl walk.tree
  limit walk _ _ := Tree.steady_ordered.refl walk.tree
  carryOut id edit carried walk ended := (Walk.carryOut_steady carried id walk ended).1
  visit node := by
    intro walk _
    exact offer_along Tree.steady_ordered context _ _
      (fun rule member node tree log => applyRule_steady context node (edits rule member) _ _ tree log)
      node .unchanged walk.tree walk.state

end Pass

namespace Run

variable {rules : List Rule} {context : Context}

theorem passes_counts {steps left : Nat} {outcome ended : RunOutcome} {tree after : Tree}
    (ran : passes rules steps context left outcome tree = (.ok ended, after)) :
    outcome.editingPasses ≤ ended.editingPasses := by
  induction left generalizing outcome tree with
  | zero =>
      cases ran
      exact Nat.le_refl _
  | succ left ih =>
      rw [passes] at ran
      generalize Walk.run (Pass.visitor rules context) steps tree outcome.log tree.root = result
        at ran
      rcases result with ⟨stop | ⟨⟩, walk⟩
      · cases ran
      · dsimp only at ran
        split at ran
        · cases ran
          exact Nat.le_refl _
        · exact Nat.le_of_succ_le (ih ran)

theorem passes_unedited (edits : ∀ rule ∈ rules, rule.Edits) {steps left : Nat}
    {outcome ended : RunOutcome} {tree after : Tree}
    (ran : passes rules steps context (left + 1) outcome tree = (.ok ended, after))
    (unedited : ended.editingPasses = outcome.editingPasses) : tree.Quiet after := by
  have steady := (Pass.steady_respected context edits).run steps tree outcome.log tree.root
  rw [passes] at ran
  generalize Walk.run (Pass.visitor rules context) steps tree outcome.log tree.root = result
    at ran steady
  rcases result with ⟨stop | ⟨⟩, walk⟩
  · cases ran
  · dsimp only at ran
    split at ran
    · next same =>
        cases ran
        exact (steady rfl).quiet same
    · -- Another revision would have been counted as an editing pass.
      have counted := passes_counts ran
      dsimp only at counted
      omega

theorem run_unedited (edits : ∀ rule ∈ rules, rule.Edits) {options : RunOptions}
    {outcome : RunOutcome} {tree after : Tree}
    (ran : run rules options context tree = (.ok outcome, after))
    (unedited : outcome.editingPasses = 0) : tree.Quiet after := by
  obtain ⟨left, passesLeft⟩ : ∃ left, max options.maxPasses 1 = left + 1 :=
    ⟨max options.maxPasses 1 - 1, by omega⟩
  obtain ⟨ended, made, rfl⟩ := run_eq_ok ran
  rw [passesLeft] at made
  rw [concluded_editingPasses] at unedited
  exact passes_unedited edits made unedited

end Run

namespace SourceUnit

/-- Whatever program a source is read as (`Tree.parse`), with whatever spans, and whatever the rules
edit: if no pass changed the tree, then it prints as the source under all options, which is what the
unit outputs without printing. -/
theorem print_of_unedited (unit : SourceUnit) (program : List Php.Statement) (rules : List Rule)
    (edits : ∀ rule ∈ rules, rule.Edits) (options : RunOptions) (context : Context)
    {outcome : RunOutcome} {after : Tree}
    (ran : Run.run rules options context (Tree.ofProgram unit.source program) = (.ok outcome, after))
    (unedited : outcome.editingPasses = 0) (printing : PrintOptions) :
    after.print printing = .ok unit.source
      ∧ unit.outputOf printing outcome after = (unit.source, []) := by
  have fresh := Tree.ofProgram_read unit.source program
  have intact := fresh.intact.quiet (Run.run_unedited edits ran unedited)
  exact ⟨intact.print printing, if_pos unedited⟩

-- The statement `f;`.
def nameProgram : List Php.Statement :=
  [.expression ⟨6, 8⟩ (.identifier ⟨6, 7⟩)]

-- Builds a node around the program, and leaves it at that.
def wrapping : Rule where
  id := "wrapping"
  description := ""
  kinds := [.program]
  accepts _ _ _ := .ok true
  apply node _ := do
    let _ ← Edit.alloc (.parenthesized node)
    return .unchanged

-- Renames, and then fails.
def failing : Rule where
  id := "failing"
  description := ""
  kinds := [.name]
  accepts _ _ _ := .ok true
  apply node _ := do
    Edit.setName node "g"
    throw (.error (.message "no"))

theorem wrapping_edits : wrapping.Edits := by
  intro node context
  have builds := RuleStep.edits_ofEdit (.alloc (.parenthesized node))
    (Edit.run_discard (Edit.alloc (.parenthesized node)))
  exact RuleStep.edits_bind builds fun _ => RuleStep.edits_pure _

theorem failing_edits : failing.Edits := by
  intro node context
  exact RuleStep.edits_bind (RuleStep.edits_setName node "g") fun _ => RuleStep.edits_throw _

def wrappedRun : Except Stop RunOutcome × Tree :=
  Run.run [wrapping, failing] ⟨3, 20⟩ {} (Tree.ofProgram "<?php f;" nameProgram)

/-- The root points at the node around it, which no slot holds, and the tree prints as its source. -/
theorem print_of_wrapped_root :
    (∀ rule ∈ [wrapping, failing], rule.Edits)
      ∧ ∃ outcome after, wrappedRun = (.ok outcome, after) ∧ outcome.editingPasses = 0
        ∧ outcome.log.diagnostics.length = 1 ∧ (after.parent? after.root).isSome
        ∧ after.print {} = .ok "<?php f;" := by
  have edits : ∀ rule ∈ [wrapping, failing], rule.Edits := by
    intro rule member
    rcases List.mem_cons.mp member with rfl | others
    · exact wrapping_edits
    · cases List.mem_singleton.mp others
      exact failing_edits
  have counts : (wrappedRun.1.toOption.map fun outcome =>
      (outcome.editingPasses, outcome.log.diagnostics.length)) = some (0, 1) := by
    decide +kernel
  have held : (wrappedRun.2.parent? wrappedRun.2.root).isSome := by decide +kernel
  refine ⟨edits, ?_⟩
  generalize ran : wrappedRun = result at counts held
  rcases result with ⟨stop | outcome, after⟩
  · cases counts
  · obtain ⟨unedited, reports⟩ := Prod.mk.inj (Option.some.inj counts)
    exact ⟨outcome, after, rfl, unedited, reports, held,
      (print_of_unedited ⟨"", "<?php f;"⟩ nameProgram _ edits _ _ ran unedited {}).1⟩

end SourceUnit

end Codemod
