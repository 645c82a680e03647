import Codemod.Proofs.Run.Smooth

/-!
Fixed points of passes. What a pass does to a tree depends on neither the log nor a transaction, so over
the tree that a converged run leaves another pass changes nothing.
-/

namespace Codemod

/-- What a walk does to the tree does not depend on what was logged before. -/
theorem Pass.walk_of_commit (rules : List Rule) (context : Context) (steps : Nat) {tree other : Tree}
    (trees : tree.commit = other.commit) (log otherLog : Log) (start : NodeId) :
    (Walk.run (visitor rules context) steps tree log start).1
        = (Walk.run (visitor rules context) steps other otherLog start).1
      ∧ (Walk.run (visitor rules context) steps tree log start).2.tree.commit
        = (Walk.run (visitor rules context) steps other otherLog start).2.tree.commit := by
  have visits : ∀ node, Walk.Paired (Walk.Alike fun _ _ => True) (fun _ => False)
      (visitor rules context node) (visitor rules context node) := by
    intro node
    constructor
    · exact fun _ => id
    · intro walk other alike
      have stable : ∀ rule ∈ rules, Stable (fun _ _ => True) context rule :=
        fun _ _ _ _ _ _ _ _ _ => trivial
      have agree : Agree (fun _ _ => True) (answerAt rules context node walk.tree walk.state)
          (answerAt rules context node other.tree other.state) :=
        answerAt_agree context stable alike.tree trivial node
      exact Or.inr ⟨congrArg Except.ok agree.verdict,
        { alike with tree := agree.tree, state := trivial }⟩
  obtain ⟨ended, alike⟩ :=
    (Walk.run_alike visits steps trees log trivial start).resolve_left id
  exact ⟨ended, alike.tree⟩

namespace Run

variable {rules : List Rule} {steps : Nat} {context : Context}

def Settled (rules : List Rule) (steps : Nat) (context : Context) (tree : Tree) : Prop :=
  ∃ log walk, Walk.run (Pass.visitor rules context) steps tree log tree.root = (.ok (), walk)
    ∧ walk.tree.commit = tree.commit

theorem Settled.of_commit {tree other : Tree} (settled : Settled rules steps context tree)
    (same : other.commit = tree.commit) (log : Log) :
    ∃ walk, Walk.run (Pass.visitor rules context) steps other log other.root = (.ok (), walk)
      ∧ walk.tree.commit = other.commit := by
  obtain ⟨former, ended, ran, still⟩ := settled
  obtain ⟨ends, trees⟩ := Pass.walk_of_commit rules context steps same log former other.root
  rw [Tree.root_of_commit same, ran] at ends trees
  rw [Tree.root_of_commit same]
  generalize Walk.run (Pass.visitor rules context) steps other log tree.root = result at ends trees
  rcases result with ⟨_, walk⟩
  cases ends
  exact ⟨walk, rfl, trees.trans (still.trans same.symm)⟩

/-- The pass that confirms a fixed point left the tree as it was. -/
theorem settled_of_converged (safe : ∀ rule ∈ rules, rule.Safe) {left : Nat}
    {outcome ended : RunOutcome} {tree after : Tree} (fit : Fit tree)
    (ran : passes rules steps context left outcome tree = (.ok ended, after))
    (pending : outcome.converged = false) (converged : ended.converged = true) :
    Settled rules steps context after := by
  induction left generalizing outcome tree with
  | zero =>
      cases ran
      rw [pending] at converged
      cases converged
  | succ left ih =>
      obtain ⟨smooth, _⟩ := pass_goes context safe steps fit outcome.log
      rw [passes] at ran
      generalize walked : Walk.run (Pass.visitor rules context) steps tree outcome.log tree.root
        = result at ran smooth
      rcases result with ⟨stop | ⟨⟩, walk⟩
      · cases ran
      · dsimp only at ran
        split at ran
        · next same =>
            cases ran
            obtain ⟨still, _⟩ := smooth.reworked.quiet same
            have settled : Settled rules steps context tree := ⟨outcome.log, walk, walked, still⟩
            obtain ⟨again, runs, kept⟩ := settled.of_commit still {}
            exact ⟨{}, again, runs, kept⟩
        · exact ih (fit.reworked smooth.reworked) ran pending

theorem passes_settled {left : Nat} {tree : Tree} (settled : Settled rules steps context tree)
    (closed : tree.journal = none) :
    ∃ again, passes rules steps context (left + 1) {} tree = (.ok again, tree) ∧ again.passes = 1
      ∧ again.editingPasses = 0 ∧ again.converged = true := by
  obtain ⟨walk, walked, still⟩ := settled.of_commit rfl {}
  have shut := passes_closed rules steps context (left + 1) {} closed
  rw [passes, walked] at shut ⊢
  dsimp only at shut ⊢
  rw [if_pos (Tree.revision_of_commit still)] at shut ⊢
  have walkShut : walk.tree.journal = none := shut
  have same : walk.tree = tree := by
    rw [← Tree.commit_of_closed walkShut, still, Tree.commit_of_closed closed]
  exact ⟨_, congrArg (Prod.mk _) same, rfl, rfl, rfl⟩

end Run

end Codemod
