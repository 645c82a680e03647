import Codemod.Proofs.Catalog.Twins
import Codemod.Proofs.Print.Chained
import Codemod.Proofs.Run.Renaming
import Codemod.Proofs.Run.Resting
import Codemod.Proofs.Run.Unedited

/-!
Processing the output of a unit. A run that converged without an error leaves a tree on which every
node rests. Where the output is read as that tree again, every node of the new tree rests as well, so
whoever processes the output gets it back after one pass.
-/

namespace Codemod

theorem Tree.exists_of_parse {source : String} {tree : Tree} (parsed : Tree.parse source = .ok tree) :
    ∃ program, Tree.ofProgram source program = tree := by
  unfold Tree.parse at parsed
  split at parsed
  · next program _ => exact ⟨program, Except.ok.inj parsed⟩
  · cases parsed

/-- A run in which no pass changed anything has left the tree as it was. -/
theorem Run.run_still {rules : List Rule} {context : Context} {tree after : Tree}
    (accounts : ∀ rule ∈ rules, rule.Accounts) (reverts : ∀ rule ∈ rules, rule.Reverts)
    (filed : tree.Filed) (closed : tree.journal = none) {options : RunOptions} {outcome : RunOutcome}
    (ran : run rules options context tree = (.ok outcome, after))
    (unedited : outcome.editingPasses = 0) : after = tree := by
  have firm := Walk.run_firm accounts reverts context options.steps filed ({} : Log)
  have shut := (closed_respected rules context).run options.steps tree ({} : Log) tree.root closed
  obtain ⟨left, count⟩ : ∃ left, max options.maxPasses 1 = left + 1 :=
    ⟨max options.maxPasses 1 - 1, by omega⟩
  obtain ⟨ended, made, rfl⟩ := run_eq_ok ran
  rw [concluded_editingPasses] at unedited
  rw [count, passes] at made
  generalize Walk.run (Pass.visitor rules context) options.steps tree ({} : Log) tree.root = result
    at made firm shut
  rcases result with ⟨stop | ⟨⟩, walk⟩
  · cases made
  · dsimp only at made
    split at made
    · next same =>
        cases made
        rw [← Tree.commit_of_closed shut, (firm.still same).1, Tree.commit_of_closed closed]
    · have counted := passes_counts made
      dsimp only at counted
      omega

namespace SourceUnit

variable {unit : SourceUnit} {rules : List Rule} {options : EngineOptions} {symbols : Symbols}
variable {tree after : Tree} {ended : RunOutcome} {outcome : UnitOutcome}

/-- Without an error the tree has been printed, unless nothing was edited. -/
theorem printed_of_clean (parsed : Tree.parse unit.source = .ok tree)
    (ran : Run.run rules options.run { symbols, unitId := unit.id } tree = (.ok ended, after))
    (processed : unit.process rules options symbols = .ok outcome)
    (clean : outcome.hasErrors = false) : ended.log.Clean
    ∧ (ended.editingPasses = 0 ∨ ∃ text, after.print options.print = .ok text) := by
  obtain rfl := Except.ok.inj ((process_of_run parsed ran).symm.trans processed)
  rw [UnitOutcome.hasErrors, List.any_append, Bool.or_eq_false_iff] at clean
  obtain ⟨log, failed⟩ := clean
  refine ⟨by simpa [Log.Clean] using log, or_iff_not_imp_left.mpr fun edited => ?_⟩
  rw [outputOf, if_neg edited] at failed
  cases printed : after.print options.print with
  | ok text => exact ⟨text, rfl⟩
  | error error =>
      rw [printed] at failed
      cases failed

theorem process_rests {source : String} (parsed : Tree.parse source = .ok tree)
    (rests : ∀ id, tree.Reaches id → Pass.Rests rules { symbols, unitId := unit.id } tree id)
    (enough : 2 * tree.size ≤ options.run.steps) :
    process ⟨unit.id, source⟩ rules options symbols
      = .ok { unitId := unit.id, output := source, passes := 1, converged := true } := by
  obtain ⟨program, rfl⟩ := Tree.exists_of_parse parsed
  have inside := Tree.contains_of_kind? (Tree.ofProgram_filed source program).rooted
  have ran := Run.run_rests Tree.ofProgram_tidy inside (Tree.ofProgram_read source program).journal
    rests enough
  rw [@process_of_run ⟨unit.id, source⟩ _ _ _ _ _ _ parsed ran]
  simp [outputOf]

/-- A second run finds nothing to do in the output of a unit that converged without an error: it takes
one pass and gives the same output, whatever its options are. The output has to be read as the tree
that was printed, and the arguments that rules compare by their text must not have another text than
the one that they were read from. -/
theorem process_again {specs : List RuleSpec} (built : Catalog.build specs = .ok rules)
    (parsed : Tree.parse unit.source = .ok tree)
    (ran : Run.run rules options.run { symbols, unitId := unit.id } tree = (.ok ended, after))
    (processed : unit.process rules options symbols = .ok outcome)
    (converged : outcome.converged = true) (clean : outcome.hasErrors = false)
    {again : Tree} (read : Tree.parse outcome.output = .ok again)
    {twin : NodeId → NodeId} (rereads : after.Rereads again twin)
    (told : after.Retells specs again twin) {later : EngineOptions}
    (enough : 2 * again.size ≤ later.run.steps) :
    process ⟨unit.id, outcome.output⟩ rules later symbols
      = .ok { unitId := unit.id, output := outcome.output, passes := 1, converged := true } := by
  have accounts := Catalog.accounts_of_build built
  have reverts := Catalog.reverts_of_build built
  obtain ⟨quiet, printed⟩ := printed_of_clean parsed ran processed clean
  have settled : ended.converged = true := by
    rw [← converged, ← Except.ok.inj ((process_of_run parsed ran).symm.trans processed)]
  obtain ⟨program, rfl⟩ := Tree.exists_of_parse parsed
  obtain ⟨other, rfl⟩ := Tree.exists_of_parse read
  have filed := Tree.ofProgram_filed unit.source program
  have closed := (Tree.ofProgram_read unit.source program).journal
  obtain ⟨filedNow, rests⟩ := Run.rests_of_converged accounts reverts filed closed quiet ran settled
  have inside := Tree.contains_of_kind? filedNow.rooted
  -- What was printed has been validated before, and what was not edited is held as it was read.
  have held : after.HeldOnce := by
    rcases printed with unedited | ⟨text, printed⟩
    · rw [Run.run_still accounts reverts filed closed ran unedited]
      exact Tree.heldOnce_iff_tidy.mpr Tree.ofProgram_tidy
    · exact (Tree.heldOnce_of_print printed).2.1
  have tidy := Tree.heldOnce_iff_tidy.mp held
  have mirrors : after.Mirrors _ twin := rereads.mirrors tidy inside
  refine process_rests read (fun id reached => ?_) enough
  exact Catalog.rests_again mirrors rereads.root tidy Tree.ofProgram_tidy filedNow
    (Tree.ofProgram_filed _ _) built told (rests held) reached

-- A rule that renames a function, and one that compares an argument.
def againSpecs : List RuleSpec :=
  [⟨"rename_function", [("mappings", .stringMap [("old", "fresh")])]⟩,
    ⟨"remove_argument",
      [("method", .string "m"), ("position", .integer 0), ("value", .string "2")]⟩]

def againRules : List Rule :=
  (Catalog.build againSpecs).toOption.getD []

def againUnit : SourceUnit :=
  ⟨"", "<?php new A(old())->m(1);"⟩

def againTree (source : String) : Tree :=
  (Tree.parse source).toOption.getD (Tree.empty source)

-- The parentheses that were printed come before the method in the tree of the output.
def againTwin (id : NodeId) : NodeId :=
  if id.index < 9 then id else ⟨id.index + 1⟩

def againRun : Except Stop RunOutcome × Tree :=
  Run.run againRules ({} : EngineOptions).run { symbols := {}, unitId := againUnit.id }
    (againTree againUnit.source)

def againOutput : String :=
  "<?php (new A(fresh()))->m(1);"

theorem againTree_parses {source : String} (parses : (Tree.parse source).toOption.isSome) :
    Tree.parse source = .ok (againTree source) := by
  unfold againTree
  cases read : Tree.parse source with
  | error error =>
      rw [read] at parses
      cases parses
  | ok tree => rfl

/-- What the first run encloses and renames, the second leaves as it is. -/
theorem process_again_enclosed : Catalog.build againSpecs = .ok againRules
    ∧ ∃ outcome, process againUnit againRules {} {} = .ok outcome
      ∧ outcome.output = againOutput ∧ outcome.passes = 2
      ∧ process ⟨"", outcome.output⟩ againRules {} {}
        = .ok { unitId := "", output := outcome.output, passes := 1, converged := true } := by
  have built : Catalog.build againSpecs = .ok againRules := Catalog.build_getD (by decide +kernel)
  refine ⟨built, ?_⟩
  have parsed : Tree.parse againUnit.source = .ok (againTree againUnit.source) :=
    againTree_parses (by decide +kernel)
  have read : Tree.parse againOutput = .ok (againTree againOutput) :=
    againTree_parses (by decide +kernel)
  have ends : ((process againUnit againRules {} {}).toOption.map fun outcome =>
      (outcome.output, outcome.converged, outcome.hasErrors, outcome.passes))
        = some (againOutput, true, false, 2) := by
    decide +kernel
  have facts : againRun.1.toOption.isSome ∧ againTwin againRun.2.root = (againTree againOutput).root
      ∧ (∀ id ∈ againRun.2.descendants againRun.2.root,
        againRun.2.readsBack (againTree againOutput) againTwin id = true)
      ∧ againRun.2.Retells againSpecs (againTree againOutput) againTwin
      ∧ 2 * (againTree againOutput).size ≤ ({} : EngineOptions).run.steps := by
    decide +kernel
  cases processed : process againUnit againRules {} {} with
  | error stop =>
      rw [processed] at ends
      cases ends
  | ok outcome =>
      rw [processed] at ends
      obtain ⟨output, converged, clean, passes⟩ : outcome.output = againOutput
          ∧ outcome.converged = true ∧ outcome.hasErrors = false ∧ outcome.passes = 2 := by
        simpa [Except.toOption] using ends
      rw [← output] at read facts
      generalize ran : againRun = result at facts
      rcases result with ⟨stop | ended, after⟩
      · cases facts.1
      · obtain ⟨_, root, nodes, told, enough⟩ := facts
        refine ⟨outcome, rfl, output, passes, ?_⟩
        exact process_again built parsed ran processed converged clean read ⟨root, nodes⟩ told enough

end SourceUnit

namespace Run

-- One rule makes a call of `foo` one of `bar`, the other takes the argument `bar()` from `f`.
def staleSpecs : List RuleSpec :=
  [⟨"rename_function", [("mappings", .stringMap [("foo", "bar")])]⟩,
    ⟨"remove_argument",
      [("function", .string "f"), ("position", .integer 0), ("value", .string "bar()")]⟩]

def staleRules : List Rule :=
  (Catalog.build staleSpecs).toOption.getD []

theorem staleRules_built : Catalog.build staleSpecs = .ok staleRules :=
  Catalog.build_getD (by decide +kernel)

end Run

namespace SourceUnit

/-- In the tree the renamed argument keeps the text that it was read from, so it is not the one to be
removed; once it is printed and read again, it is. -/
theorem process_stale_again : Catalog.build Run.staleSpecs = .ok Run.staleRules
    ∧ ∃ first second, process ⟨"", "<?php f(foo());"⟩ Run.staleRules {} {} = .ok first
      ∧ first.converged = true ∧ first.hasErrors = false ∧ first.output = "<?php f(bar());"
      ∧ process ⟨"", first.output⟩ Run.staleRules {} {} = .ok second
      ∧ second.output = "<?php f();" ∧ second.changed = true ∧ second.passes = 2 := by
  have firstly : ((process ⟨"", "<?php f(foo());"⟩ Run.staleRules {} {}).toOption.map fun outcome =>
      (outcome.converged, outcome.hasErrors, outcome.output))
        = some (true, false, "<?php f(bar());") := by
    decide +kernel
  have secondly : ((process ⟨"", "<?php f(bar());"⟩ Run.staleRules {} {}).toOption.map fun outcome =>
      (outcome.output, outcome.changed, outcome.passes)) = some ("<?php f();", true, 2) := by
    decide +kernel
  refine ⟨Run.staleRules_built, ?_⟩
  cases once : process ⟨"", "<?php f(foo());"⟩ Run.staleRules {} {} with
  | error stop =>
      rw [once] at firstly
      cases firstly
  | ok first =>
      rw [once] at firstly
      obtain ⟨converged, errors, output⟩ : first.converged = true ∧ first.hasErrors = false
          ∧ first.output = "<?php f(bar());" := by
        simpa [Except.toOption] using firstly
      cases twice : process ⟨"", "<?php f(bar());"⟩ Run.staleRules {} {} with
      | error stop =>
          rw [twice] at secondly
          cases secondly
      | ok second =>
          rw [twice] at secondly
          obtain ⟨ended, changed, passes⟩ : second.output = "<?php f();" ∧ second.changed = true
              ∧ second.passes = 2 := by
            simpa [Except.toOption] using secondly
          exact ⟨first, second, rfl, converged, errors, output, output ▸ twice, ended, changed,
            passes⟩

end SourceUnit

end Codemod
