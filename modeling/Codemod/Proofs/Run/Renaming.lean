import Codemod.Proofs.Catalog.Renaming
import Codemod.SourceUnit

/-!
Units in which functions are renamed. The first pass renames every call that has a new name, and the
second one finds nothing left to do; what is printed is the source with the new names in the places of
the old ones.
-/

namespace Codemod

open RenameFunction

namespace Run

variable {config : RenameFunction} {tree : Tree} {steps : Nat}

theorem planned_respelled {names : List (NodeId × String)} {after : Tree}
    (planned : Walk.Planned .idle tree) (respelled : tree.Respelled names after) :
    Walk.Planned .idle after where
  held := respelled.same.heldOnce respelled.root planned.held
  rooted := respelled.same.contains.mpr (respelled.root ▸ planned.rooted)
  loose := (respelled.parent? _).trans (respelled.root ▸ planned.loose)
  fits := Plan.fits_idle after

variable (config) in
/-- A pass of the rule. -/
theorem passes_succ (planned : Walk.Planned .idle tree) (enough : 2 * tree.size ≤ steps)
    (context : Context) (left : Nat) (outcome : RunOutcome) :
    ∃ after log, config.Noted tree outcome.log (tree.descendants tree.root) after log
      ∧ passes [config.rule] steps context (left + 1) outcome tree =
        let next := { outcome with passes := outcome.passes + 1, log }
        if after.revision = tree.revision then (.ok { next with converged := true }, after)
        else passes [config.rule] steps context left
          { next with editingPasses := outcome.editingPasses + 1 } after := by
  obtain ⟨walk, ran, noted, quiet⟩ := config.pass_renames context outcome.log planned enough
  refine ⟨walk.tree, walk.state, noted, ?_⟩
  rw [passes, ran]
  dsimp only
  rw [quiet]
  rfl

/-- Two passes are enough, and one if there is nothing to rename. -/
theorem passes_renaming (stable : config.Stable) (planned : Walk.Planned .idle tree)
    (enough : 2 * tree.size ≤ steps) (context : Context) (left : Nat) :
    ∃ outcome after, passes [config.rule] steps context (left + 2) {} tree = (.ok outcome, after)
      ∧ tree.Respelled (config.renamings tree) after
      ∧ outcome.converged = true
      ∧ outcome.passes = (if config.calls tree = [] then 1 else 2)
      ∧ (outcome.editingPasses = 0 ↔ config.calls tree = [])
      ∧ outcome.log.diagnostics = []
      ∧ outcome.log.applications
        = (config.calls tree).map fun call => ⟨config.rule.id, tree.position? call⟩ := by
  obtain ⟨after, log, noted, ran⟩ :=
    passes_succ config planned enough context (left + 1) {}
  rw [ran]
  dsimp only
  have applications : log.applications
      = (config.calls tree).map fun call => ⟨config.rule.id, tree.position? call⟩ :=
    noted.applications.trans (List.nil_append _)
  by_cases none : config.calls tree = []
  · have empty : config.renamings tree = [] := calls_eq_nil_iff.mp none
    have still : after.revision = tree.revision := by
      rw [noted.revision]
      exact congrArg (fun names => tree.revision + List.length names) empty
    rw [if_pos still]
    exact ⟨_, _, rfl, noted.respelled, rfl, (if_pos none).symm, iff_of_true rfl none,
      noted.diagnostics, applications⟩
  · have some : config.renamings tree ≠ [] := fun empty => none (calls_eq_nil_iff.mpr empty)
    have edited : after.revision ≠ tree.revision := by
      rw [noted.revision]
      have counted : 0 < (config.renamings tree).length := List.length_pos_of_ne_nil some
      have length : (config.renamings tree).length
        = ((tree.descendants tree.root).filterMap (config.renaming? tree)).length := rfl
      omega
    rw [if_neg edited]
    -- What was renamed stays as it is, and so does the tree.
    have nothing : config.renamings after = [] := stable.renamings_eq_nil noted.respelled
    have same := planned_respelled planned noted.respelled
    have size := noted.respelled.size
    obtain ⟨last, entries, further, again⟩ := passes_succ config same (size ▸ enough) context left
      { passes := 1, editingPasses := 1, log }
    rw [again]
    dsimp only
    have still : last.revision = after.revision := by
      rw [further.revision]
      exact congrArg (fun names => after.revision + List.length names) nothing
    rw [if_pos still]
    have respelled : after.Respelled [] last := nothing ▸ further.respelled
    have quiet : config.calls after = [] := calls_eq_nil_iff.mpr nothing
    refine ⟨_, _, rfl, noted.respelled.again respelled, rfl, (if_neg none).symm,
      iff_of_false nofun none, further.diagnostics.trans noted.diagnostics, ?_⟩
    rw [further.applications]
    exact (congrArg (fun calls => log.applications ++ List.map _ calls) quiet).trans
      ((List.append_nil _).trans applications)

end Run

namespace SourceUnit

theorem process_of_run {unit : SourceUnit} {rules : List Rule} {options : EngineOptions}
    {symbols : Symbols} {tree after : Tree} {outcome : RunOutcome}
    (read : Tree.parse unit.source = .ok tree)
    (ran : Run.run rules options.run { symbols, unitId := unit.id } tree = (.ok outcome, after)) :
    let printed := unit.outputOf options.print outcome after
    process unit rules options symbols = .ok {
      unitId := unit.id
      output := printed.1
      changed := printed.1 != unit.source
      applications := outcome.log.applications
      diagnostics := outcome.log.diagnostics ++ printed.2
      passes := outcome.passes
      converged := outcome.converged } := by
  unfold process
  rw [read]
  dsimp only
  rw [ran]

/-- A unit whose tree prints after the run has that text as its output. -/
theorem process_printed {unit : SourceUnit} {rules : List Rule} {options : EngineOptions}
    {symbols : Symbols} {tree after : Tree} {outcome : RunOutcome} {text : String}
    (read : Tree.parse unit.source = .ok tree)
    (ran : Run.run rules options.run { symbols, unitId := unit.id } tree = (.ok outcome, after))
    (printed : after.print options.print = .ok text)
    (same : outcome.editingPasses = 0 → text = unit.source) :
    process unit rules options symbols = .ok {
      unitId := unit.id
      output := text
      changed := text != unit.source
      applications := outcome.log.applications
      diagnostics := outcome.log.diagnostics
      passes := outcome.passes
      converged := outcome.converged } := by
  have gives : unit.outputOf options.print outcome after = (text, []) := by
    rw [outputOf]
    split
    · next unedited => rw [same unedited]
    · rw [printed]
  rw [process_of_run read ran, gives, List.append_nil]

/-- Renaming functions changes the renamed names and nothing else. If no new name is itself renamed, a
unit that parses converges, in the second pass or, where there is nothing to rename, in the first;
every call whose callee has a new name is reported, in source order, and the output is the source
with the new name in the place of each such callee. One thing more is added: parentheses around a
creation on which a method is called, if a callee in it was renamed. The names are looked up without
regard to case, and a call with a leading separator keeps one. -/
theorem process_renaming (unit : SourceUnit) {program : List Php.Statement}
    (parsed : Php.program unit.source = .ok program)
    (inner : ∀ place ∈ Php.statementPlaces program, Text.Laid unit.source place.1 place.2)
    (outer : Text.Laid unit.source ⟨0, unit.source.utf8ByteSize⟩ (program.map Php.Statement.span))
    {params : List (String × ConfigValue)} {config : RenameFunction}
    (accepted : RenameFunction.ofParams ⟨"rename_function", params⟩ = .ok config)
    (stable : config.Stable) (options : EngineOptions) (symbols : Symbols)
    (twice : 2 ≤ options.run.maxPasses)
    (enough : 2 * (Tree.ofProgram unit.source program).size ≤ options.run.steps) :
    let tree := Tree.ofProgram unit.source program
    let edits := tree.changes (config.renamings tree) tree.size tree.root
    Catalog.build [⟨"rename_function", params⟩] = .ok [config.rule]
      ∧ (∃ outcome, process unit [config.rule] options symbols = .ok outcome
        ∧ outcome.converged = true
        ∧ outcome.passes = (if config.calls tree = [] then 1 else 2)
        ∧ outcome.diagnostics = []
        ∧ outcome.applications
          = (config.calls tree).map (fun call => ⟨"rename_function", tree.position? call⟩)
        ∧ outcome.output
          = Text.interleave unit.source ⟨0, unit.source.utf8ByteSize⟩ edits)
      ∧ edits.Perm
        ((tree.descendants tree.root).flatMap (tree.changesAt (config.renamings tree)))
      ∧ Text.Laid unit.source ⟨0, unit.source.utf8ByteSize⟩ (edits.map Replacement.span)
      ∧ ∀ {title name}, config.newName? title = some name ↔ ∃ key text,
        (key, text) ∈ config.mappings ∧ Name.same key title = true
          ∧ name = RenameFunction.respelled title text ∧ name ≠ title := by
  intro tree edits
  have fresh : Tree.Fresh (fun _ _ => True) unit.source tree := Tree.ofProgram_read unit.source program
  have proper : tree.Proper := Tree.ofProgram_proper inner outer
  have rooted : tree.kind? tree.root = some .program := Tree.ofProgram_rooted
  have inside : tree.contains tree.root := proper.sound.rooted
  have planned : Walk.Planned .idle tree :=
    ⟨fresh.intact.heldOnce, inside, fresh.unheld, Plan.fits_idle tree⟩
  have built : Catalog.build [⟨"rename_function", params⟩] = .ok [config.rule] :=
    RenameFunction.build_eq accepted
  have free : config.mappings.clashing? = none := RenameFunction.free_of_ofParams accepted
  obtain ⟨left, count⟩ : ∃ left, max options.run.maxPasses 1 = left + 2 :=
    ⟨max options.run.maxPasses 1 - 2, by omega⟩
  obtain ⟨ended, after, ran, respelled, converged, passes, editing, diagnostics, applications⟩ :=
    Run.passes_renaming stable planned enough { symbols, unitId := unit.id } left
  have printed : ∀ {names other}, tree.Respelled names other →
      other.print options.print = .ok (Text.interleave unit.source ⟨0, unit.source.utf8ByteSize⟩
        (tree.changes names tree.size tree.root))
      ∧ Text.Laid unit.source ⟨0, unit.source.utf8ByteSize⟩
        ((tree.changes names tree.size tree.root).map Replacement.span) :=
    fun spelled => spelled.print_changes fresh.intact proper.sound
      (fun id _ => proper.sourced id) rooted
  have ends : Run.run [config.rule] options.run { symbols, unitId := unit.id } tree
      = (.ok ended, after) := by
    rw [Run.run_eq, count, ran]
    dsimp only [Except.map]
    rw [Run.concluded_of_converged converged]
  have read : Tree.parse unit.source = .ok tree := by
    unfold Tree.parse
    rw [parsed]
  -- Without a name to change the text is the source, which is what is printed as well.
  have same : ended.editingPasses = 0 →
      Text.interleave unit.source ⟨0, unit.source.utf8ByteSize⟩ edits = unit.source := by
    intro unedited
    have none : config.renamings tree = [] :=
      RenameFunction.calls_eq_nil_iff.mp (editing.mp unedited)
    have whole := (printed tree.respelled_nil).1.symm.trans (fresh.intact.print options.print)
    have spelled : edits = tree.changes [] tree.size tree.root := by rw [← none]
    rw [spelled]
    exact Except.ok.inj whole
  obtain ⟨prints, laid⟩ := printed respelled
  refine ⟨built, ⟨_, process_printed read ends prints same, converged, passes, diagnostics,
    applications, rfl⟩, ?_, laid, config.newName?_eq_some_iff free⟩
  exact fresh.intact.changes_perm respelled.spelled tree.size .self (Tree.contains_iff.mp inside)

-- Three calls of one function under two spellings, one of them in a creation.
def nestedSource : String :=
  "<?php\nnew A( \\Old(1) )->m(old ( old() ));"

def nestedProgram : List Php.Statement :=
  (Php.program nestedSource).toOption.getD []

def nestedConfig : RenameFunction :=
  ⟨[("OLD", "fresh")]⟩

theorem nestedConfig_stable : nestedConfig.Stable := by
  have free : nestedConfig.mappings.clashing? = none := by decide +kernel
  intro title name renamed
  obtain ⟨_, text, member, _, spelled, _⟩ := (nestedConfig.newName?_eq_some_iff free).mp renamed
  cases List.mem_singleton.mp member
  have spellings : name = "fresh" ∨ name = "\\fresh" := by
    unfold RenameFunction.respelled at spelled
    split at spelled
    · exact Or.inr spelled
    · exact Or.inl spelled
  rcases spellings with rfl | rfl <;> decide +kernel

theorem program_getD {source : String} (parses : (Php.program source).toOption.isSome) :
    Php.program source = .ok ((Php.program source).toOption.getD []) := by
  cases read : Php.program source with
  | error error =>
      rw [read] at parses
      cases parses
  | ok program => rfl

/-- The creation is enclosed, and blanks are where they were. -/
theorem process_renaming_nested :
    ∃ outcome, process ⟨"", nestedSource⟩ [nestedConfig.rule] {} {} = .ok outcome
      ∧ outcome.converged = true ∧ outcome.passes = 2 ∧ outcome.applications.length = 3
      ∧ outcome.output = "<?php\n(new A( \\fresh(1) ))->m(fresh ( fresh() ));" := by
  have parses : (Php.program nestedSource).toOption.isSome := by decide +kernel
  have inner : ∀ place ∈ Php.statementPlaces nestedProgram,
      Text.Laid nestedSource place.1 place.2 := by decide +kernel
  have outer : Text.Laid nestedSource ⟨0, nestedSource.utf8ByteSize⟩
      (nestedProgram.map Php.Statement.span) := by decide +kernel
  have accepted : RenameFunction.ofParams
      ⟨"rename_function", [("mappings", .stringMap [("OLD", "fresh")])]⟩ = .ok nestedConfig := by
    have table : Params.requireNameTable
        ⟨"rename_function", [("mappings", .stringMap [("OLD", "fresh")])]⟩ "mappings"
          = .ok nestedConfig.mappings := by
      decide +kernel
    rw [RenameFunction.ofParams, table]
    rfl
  obtain ⟨_, ⟨outcome, ran, converged, passes, _, applications, output⟩, _⟩ :=
    process_renaming ⟨"", nestedSource⟩ (program_getD parses) inner outer accepted nestedConfig_stable
      {} {} (by decide) (by decide +kernel)
  refine ⟨outcome, ran, converged, passes.trans ?_,
    (congrArg List.length applications).trans ?_, output.trans ?_⟩
  · decide +kernel
  · decide +kernel
  · decide +kernel

end SourceUnit

end Codemod
