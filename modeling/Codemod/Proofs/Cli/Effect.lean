import Codemod.Proofs.Cli.Files
import Codemod.Proofs.Cli.Writing
import Codemod.Proofs.Run.Batch

/-!
What a run leaves behind. It changes nothing unless it was told to and came to processing; then a
file that changed was asked for, and holds what processing its text gave. The exit code says whether
there were errors, else whether there are changes to be made.
-/

namespace Codemod

namespace Cli

open Disk

/-- The rules and options that a run goes by: those of the configuration, unless the command line
says otherwise. -/
structure Job.Settled (disk : Disk) (args : Args) (steps : Nat) (job : Job) : Prop where
  loaded : loadConfig disk args = .ok (job.config, job.configPath)
  built : Catalog.build (job.config.effectiveRules args.rules) = .ok job.rules
  engine : job.engine = job.config.engineOptions args.maxPasses args.stopOnError steps
  check : job.report.check = !args.fix

theorem build_of_chooseRules {args : Args} {config : Config} {rules : List Rule}
    (chosen : chooseRules args config = .ok rules) :
    Catalog.build (config.effectiveRules args.rules) = .ok rules := by
  unfold chooseRules at chosen
  split at chosen
  · cases chosen
  · split at chosen
    · cases chosen
    · split at chosen
      · next built =>
          cases chosen
          exact built
      · cases chosen

theorem settled_of_prepare {disk : Disk} {args : Args} {steps : Nat} {job : Job}
    (prepared : prepare disk args steps = .ok job) : job.Settled disk args steps := by
  obtain ⟨⟨config, configPath⟩, loaded, rest⟩ := bind_eq_ok.mp prepared
  obtain ⟨format, _, rest⟩ := bind_eq_ok.mp rest
  obtain ⟨rules, chosen, made⟩ := bind_eq_ok.mp rest
  cases made
  exact ⟨loaded, build_of_chooseRules chosen, rfl, rfl⟩

theorem total_pos {count : FileResult → Nat} {results : List FileResult} :
    0 < total count results ↔ ∃ result ∈ results, 0 < count result := by
  induction results with
  | nil => simp [total]
  | cons result rest ih =>
      have step : total count (result :: rest) = count result + total count rest := rfl
      rw [step, Nat.add_pos_iff_pos_or_pos, ih]
      simp only [List.mem_cons, exists_eq_or_imp]

def FileResult.HasError : FileResult → Prop
  | .processed _ _ outcome => outcome.hasErrors = true
  | .failed .. => True

theorem FileResult.errorCount_pos {result : FileResult} :
    0 < result.errorCount ↔ result.HasError := by
  cases result with
  | processed path source outcome =>
      rw [errorCount, List.countP_pos_iff, HasError, UnitOutcome.hasErrors, List.any_eq_true]
  | failed path reason => simp [errorCount, HasError]

theorem exitCode_eq_one {options : ReportOptions} {results : List FileResult}
    (failed : ∃ result ∈ results, result.HasError) : exitCode options results = 1 := by
  have errors : 0 < (Summary.of results).errors :=
    total_pos.mpr (failed.imp fun _ => And.imp_right FileResult.errorCount_pos.mpr)
  exact if_pos errors

theorem exitCode_of_noError {options : ReportOptions} {results : List FileResult}
    (clean : ¬ ∃ result ∈ results, result.HasError) :
    exitCode options results
      = if options.check ∧ ∃ result ∈ results, result.changed then 2 else 0 := by
  have errors : ¬ 0 < (Summary.of results).errors := fun some =>
    clean ((total_pos.mp some).imp fun _ => And.imp_right FileResult.errorCount_pos.mp)
  have changes : 0 < (Summary.of results).filesWithChanges ↔ ∃ result ∈ results, result.changed :=
    List.countP_pos_iff
  rw [exitCode, if_neg errors]
  simp only [changes]

/-- What a run was asked to do, and the outcomes of the files it read. -/
structure Work (disk : Disk) (arguments : List String) (steps : Nat) where
  args : Args
  job : Job
  set : FileSet
  outcomes : List UnitOutcome
  parsed : Invocation.parse arguments = .ok (.run args)
  unlisted : args.listRules = false
  prepared : prepare disk args steps = .ok job
  collected : collectAll disk job.config args.paths = .ok set

/-- A run in which the files are processed one after the other. -/
structure Session (disk : Disk) (arguments : List String) (steps : Nat) extends
    Work disk arguments steps where
  cancelled : Bool
  processed : Batch.process job.rules job.engine job.config.symbols false
    (readUnits disk set.files).1 = .ok (outcomes, cancelled)

def Writable (disk : Disk) (arguments : List String) (steps : Nat) : Prop :=
  ∀ entry ∈ (run disk arguments steps).writes, disk.refusals.lookup entry.1 = none

namespace Work

variable {disk : Disk} {arguments : List String} {steps : Nat} (work : Work disk arguments steps)

def units : List SourceUnit :=
  (readUnits disk work.set.files).1

def processedUnits : List (SourceUnit × UnitOutcome) :=
  work.units.zip work.outcomes

def results : List FileResult :=
  (readUnits disk work.set.files).2
    ++ work.processedUnits.map fun entry => work.job.result disk entry.1 entry.2

def output : Output :=
  work.job.conclude disk work.set work.outcomes

/-- A file that was asked for and read, processed and changed. -/
structure Edited (place : List String) (unit : SourceUnit) (outcome : UnitOutcome) : Prop where
  paired : (unit, outcome) ∈ work.processedUnits
  asked : Asked disk work.args.paths unit.id place
  kept : work.job.config.excludes unit.id = false
  held : disk.contents? place = some (.text unit.source)
  processed : unit.process work.job.rules work.job.engine work.job.config.symbols = .ok outcome
  ran : outcome.skipped = false
  changed : outcome.changed = true

def Failed : Prop :=
  (∃ path place, Asked disk work.args.paths path place ∧ work.job.config.excludes path = false
      ∧ ∀ source, disk.contents? place ≠ some (.text source))
    ∨ ∃ outcome ∈ work.outcomes, outcome.hasErrors = true

def Pending : Prop :=
  work.args.fix = false ∧ ∃ outcome ∈ work.outcomes, outcome.changed = true

theorem writes_iff {outcome : UnitOutcome} :
    work.job.writes outcome = true ↔ work.args.fix = true ∧ outcome.changed = true := by
  rw [Job.writes, (settled_of_prepare work.prepared).check, Bool.not_not, Bool.and_eq_true]

theorem mem_writes {entry : String × String} :
    entry ∈ work.output.writes ↔
      work.args.fix = true ∧ ∃ unit outcome, (unit, outcome) ∈ work.processedUnits
        ∧ outcome.changed = true ∧ entry = (unit.id, outcome.output) := by
  rw [output, Job.conclude, List.mem_map]
  constructor
  · rintro ⟨⟨unit, outcome⟩, kept, rfl⟩
    obtain ⟨paired, written⟩ := List.mem_filter.mp kept
    obtain ⟨fix, changed⟩ := work.writes_iff.mp written
    exact ⟨fix, unit, outcome, paired, changed, rfl⟩
  · rintro ⟨fix, unit, outcome, paired, changed, rfl⟩
    exact ⟨_, List.mem_filter.mpr ⟨paired, work.writes_iff.mpr ⟨fix, changed⟩⟩, rfl⟩

end Work

namespace Session

variable {disk : Disk} {arguments : List String} {steps : Nat}
  (session : Session disk arguments steps)

theorem run_eq : run disk arguments steps = session.output := by
  rw [run, session.parsed]
  dsimp only
  rw [execute, session.unlisted, if_neg Bool.false_ne_true, session.prepared]
  dsimp only
  rw [Job.run, session.collected]
  dsimp only
  rw [session.processed]
  rfl

theorem mem_writes {entry : String × String} :
    entry ∈ (run disk arguments steps).writes ↔
      session.args.fix = true ∧ ∃ unit outcome, (unit, outcome) ∈ session.processedUnits
        ∧ outcome.changed = true ∧ entry = (unit.id, outcome.output) := by
  rw [session.run_eq]
  exact session.toWork.mem_writes

theorem course : Batch.Course session.job.rules session.job.engine session.job.config.symbols false
    session.units session.outcomes session.cancelled :=
  Batch.process_course session.processed

/-- Every outcome is that of a file. -/
theorem mem_outcomes {outcome : UnitOutcome} :
    outcome ∈ session.outcomes ↔ ∃ unit, (unit, outcome) ∈ session.processedUnits := by
  have same : session.processedUnits.map Prod.snd = session.outcomes :=
    List.map_snd_zip (Nat.le_of_eq session.course.length)
  rw [← same, List.mem_map]
  constructor
  · rintro ⟨⟨unit, _⟩, paired, rfl⟩
    exact ⟨unit, paired⟩
  · rintro ⟨unit, paired⟩
    exact ⟨_, paired, rfl⟩

/-- A file of a changed unit was edited, wherever the path of the unit leads. -/
theorem edited (proper : disk.Proper) {unit : SourceUnit} {outcome : UnitOutcome}
    {place : List String} (paired : (unit, outcome) ∈ session.processedUnits)
    (changed : outcome.changed = true) (leads : disk.LeadsTo unit.id place) :
    session.Edited place unit outcome := by
  obtain ⟨taken, read⟩ := mem_readUnits.mp (List.of_mem_zip paired).1
  obtain ⟨⟨there, asked⟩, kept⟩ := (mem_collectAll proper session.collected).mp taken
  obtain rfl : there = place := leadsTo_unique (asked.leadsTo proper) leads
  have processed := session.course.of_ne_skipped paired
    (UnitOutcome.ne_ofSkipped_of_changed changed unit)
  exact
    { paired, asked, kept, processed, changed
      held := (read_eq_ok leads).mp read
      ran := SourceUnit.skipped_of_process processed }

theorem result_eq (writable : Writable disk arguments steps) {unit : SourceUnit} {outcome : UnitOutcome}
    (paired : (unit, outcome) ∈ session.processedUnits) :
    session.job.result disk unit outcome = .processed unit.id unit.source outcome := by
  unfold Job.result
  cases written : session.job.writes outcome with
  | false => rfl
  | true =>
      obtain ⟨fix, changed⟩ := session.writes_iff.mp written
      have entry : (unit.id, outcome.output) ∈ (run disk arguments steps).writes :=
        session.mem_writes.mpr ⟨fix, unit, outcome, paired, changed, rfl⟩
      rw [writable _ entry]

/-- Every result is of a file that could not be read, or of a processed one. -/
theorem exists_result (writable : Writable disk arguments steps) (property : FileResult → Prop) :
    (∃ result ∈ session.results, property result) ↔
      (∃ result ∈ (readUnits disk session.set.files).2, property result)
        ∨ ∃ unit outcome, (unit, outcome) ∈ session.processedUnits
          ∧ property (.processed unit.id unit.source outcome) := by
  constructor
  · rintro ⟨result, listed, holds⟩
    rcases List.mem_append.mp listed with failure | processed
    · exact Or.inl ⟨result, failure, holds⟩
    · obtain ⟨⟨unit, outcome⟩, paired, rfl⟩ := List.mem_map.mp processed
      exact Or.inr ⟨unit, outcome, paired, session.result_eq writable paired ▸ holds⟩
  · rintro (⟨result, failure, holds⟩ | ⟨unit, outcome, paired, holds⟩)
    · exact ⟨result, List.mem_append_left _ failure, holds⟩
    · exact ⟨_, List.mem_append_right _ (List.mem_map.mpr ⟨_, paired, rfl⟩),
        (session.result_eq writable paired).symm ▸ holds⟩

theorem failed_iff (proper : disk.Proper) (writable : Writable disk arguments steps) :
    (∃ result ∈ session.results, result.HasError) ↔ session.Failed := by
  rw [session.exists_result writable]
  refine or_congr ?_ ?_
  · rw [← exists_unreadable proper session.collected]
    constructor
    · rintro ⟨result, failure, -⟩
      obtain ⟨path, taken, reason, unread, -⟩ := mem_failures.mp failure
      exact ⟨path, taken, reason, unread⟩
    · rintro ⟨path, taken, reason, unread⟩
      exact ⟨_, mem_failures.mpr ⟨path, taken, reason, unread, rfl⟩, trivial⟩
  · constructor
    · rintro ⟨unit, outcome, paired, errors⟩
      exact ⟨outcome, session.mem_outcomes.mpr ⟨unit, paired⟩, errors⟩
    · rintro ⟨outcome, listed, errors⟩
      obtain ⟨unit, paired⟩ := session.mem_outcomes.mp listed
      exact ⟨unit, outcome, paired, errors⟩

theorem pending_iff (writable : Writable disk arguments steps) :
    (session.job.report.check = true ∧ ∃ result ∈ session.results, result.changed = true)
      ↔ session.Pending := by
  rw [session.exists_result writable fun result => result.changed = true,
    (settled_of_prepare session.prepared).check, Bool.not_eq_true']
  refine and_congr_right fun _ => ?_
  constructor
  · rintro (⟨result, failure, changed⟩ | ⟨unit, outcome, paired, changed⟩)
    · obtain ⟨path, _, reason, _, rfl⟩ := mem_failures.mp failure
      cases changed
    · exact ⟨outcome, session.mem_outcomes.mpr ⟨unit, paired⟩, changed⟩
  · rintro ⟨outcome, listed, changed⟩
    obtain ⟨unit, paired⟩ := session.mem_outcomes.mp listed
    exact Or.inr ⟨unit, outcome, paired, changed⟩

/-- Errors decide first, then changes that are still to be made. -/
theorem exit_eq (proper : disk.Proper) (writable : Writable disk arguments steps) :
    (session.Failed → (run disk arguments steps).exit = 1)
      ∧ (¬ session.Failed → session.Pending → (run disk arguments steps).exit = 2)
      ∧ (¬ session.Failed → ¬ session.Pending → (run disk arguments steps).exit = 0) := by
  have exits : (run disk arguments steps).exit = exitCode session.job.report session.results := by
    rw [session.run_eq]
    rfl
  rw [exits, ← session.failed_iff proper writable, ← session.pending_iff writable]
  refine ⟨exitCode_eq_one, fun clean pending => ?_, fun clean settled => ?_⟩
  · rw [exitCode_of_noError clean, if_pos pending]
  · rw [exitCode_of_noError clean, if_neg settled]

end Session

/-- A run that writes came to processing. -/
theorem session_of_writes {disk : Disk} {arguments : List String} {steps : Nat}
    {entry : String × String} (written : entry ∈ (run disk arguments steps).writes) :
    Nonempty (Session disk arguments steps) := by
  unfold run at written
  split at written
  · next args parsed =>
      unfold execute at written
      split at written
      · cases written
      · next unlisted =>
          split at written
          · cases written
          · next job prepared =>
              unfold Job.run at written
              split at written
              · cases written
              · next set collected =>
                  split at written
                  · cases written
                  · next outcomes cancelled processed =>
                      exact ⟨{ args, job, set, outcomes, cancelled, parsed, prepared, collected
                               unlisted := Bool.eq_false_iff.mpr unlisted, processed }⟩
  · cases written
  · cases written
  · cases written

def after (disk : Disk) (arguments : List String) (steps : Nat := usualSteps) : Disk :=
  disk.writeAll (run disk arguments steps).writes

theorem after_eq_self {disk : Disk} {arguments : List String} {steps : Nat}
    (nothing : ∀ entry, entry ∉ (run disk arguments steps).writes) :
    after disk arguments steps = disk := by
  rw [after, List.eq_nil_iff_forall_not_mem.mpr nothing]
  rfl

theorem after_of_not_fix {disk : Disk} {arguments : List String} {steps : Nat}
    (report : ∀ args, Invocation.parse arguments = .ok (.run args) → args.fix = false) :
    after disk arguments steps = disk := by
  refine after_eq_self fun entry written => ?_
  obtain ⟨session⟩ := session_of_writes written
  have fix := (session.mem_writes.mp written).1
  rw [report session.args session.parsed] at fix
  cases fix

theorem after_of_stopped {disk : Disk} {arguments : List String} {steps : Nat}
    (stopped : ¬ Nonempty (Session disk arguments steps)) : after disk arguments steps = disk :=
  after_eq_self fun _ written => stopped (session_of_writes written)

theorem edited_of_changed {disk : Disk} (proper : disk.Proper) {arguments : List String}
    {steps : Nat} {place : List String}
    (other : (after disk arguments steps).contents? place ≠ disk.contents? place) :
    ∃ (session : Session disk arguments steps) (unit : SourceUnit) (outcome : UnitOutcome),
      session.args.fix = true ∧ session.Edited place unit outcome
        ∧ (after disk arguments steps).contents? place = some (.text outcome.output) := by
  rcases disk.contents?_writeAll (run disk arguments steps).writes place with
    same | ⟨entry, written, leads, _, held⟩
  · exact absurd same other
  · obtain ⟨session⟩ := session_of_writes written
    obtain ⟨fix, unit, outcome, paired, changed, rfl⟩ := session.mem_writes.mp written
    exact ⟨session, unit, outcome, fix, session.edited proper paired changed leads, held⟩

/-- Every file that was to be edited holds what processing it gave. Where several paths lead to a
file, it is what was written last. -/
theorem Session.holds_of_edited {disk : Disk} (proper : disk.Proper) {arguments : List String}
    {steps : Nat} (session : Session disk arguments steps) (fix : session.args.fix = true)
    (writable : Writable disk arguments steps) {place : List String} {unit : SourceUnit}
    {outcome : UnitOutcome} (edited : session.Edited place unit outcome) :
    ∃ last result, session.Edited place last result
      ∧ (after disk arguments steps).contents? place = some (.text result.output) := by
  have written : (unit.id, outcome.output) ∈ (run disk arguments steps).writes :=
    session.mem_writes.mpr ⟨fix, unit, outcome, edited.paired, edited.changed, rfl⟩
  obtain ⟨entry, last, leads, held⟩ :=
    contents?_writeAll_of_leadsTo written (edited.asked.leadsTo proper) (writable _ written)
  obtain ⟨_, other, result, paired, changed, rfl⟩ := session.mem_writes.mp last
  exact ⟨other, result, session.edited proper paired changed leads, held⟩

/-- Without `--fix` nothing changes, nor where a run stops before processing. What changes otherwise
is a file that was asked for, to what processing its text gave, and every such file with a change is
written. The exit code says whether there were errors, else whether changes are left to be made. -/
theorem run_effect {disk : Disk} (proper : disk.Proper) (arguments : List String)
    (steps : Nat) :
    ((∀ args, Invocation.parse arguments = .ok (.run args) → args.fix = false) →
        after disk arguments steps = disk)
      ∧ (¬ Nonempty (Session disk arguments steps) → after disk arguments steps = disk)
      ∧ (∀ place, (after disk arguments steps).contents? place ≠ disk.contents? place →
          ∃ (session : Session disk arguments steps) (unit : SourceUnit) (outcome : UnitOutcome),
            session.args.fix = true ∧ session.job.Settled disk session.args steps
              ∧ session.Edited place unit outcome
              ∧ (after disk arguments steps).contents? place = some (.text outcome.output))
      ∧ ∀ session : Session disk arguments steps, Writable disk arguments steps →
          (session.args.fix = true → ∀ place unit outcome, session.Edited place unit outcome →
              ∃ last result, session.Edited place last result
                ∧ (after disk arguments steps).contents? place = some (.text result.output))
            ∧ (session.Failed → (run disk arguments steps).exit = 1)
            ∧ (¬ session.Failed → session.Pending → (run disk arguments steps).exit = 2)
            ∧ (¬ session.Failed → ¬ session.Pending → (run disk arguments steps).exit = 0) := by
  refine ⟨after_of_not_fix, after_of_stopped, fun place other => ?_, fun session writable => ?_⟩
  · obtain ⟨session, unit, outcome, fix, edited, held⟩ := edited_of_changed proper other
    exact ⟨session, unit, outcome, fix, settled_of_prepare session.prepared, edited, held⟩
  · exact ⟨fun fix _ _ _ edited => session.holds_of_edited proper fix writable edited,
      session.exit_eq proper writable⟩

theorem eq_ok_of_toOption {ε α : Type} {result : Except ε α} {value : α}
    (ends : result.toOption = some value) : result = .ok value := by
  cases result with
  | error reason => cases ends
  | ok found =>
      cases ends
      rfl

-- The work of a command line that comes to processing, for outcomes that are given.
def Work.ofArgs {disk : Disk} {arguments : List String} (args : Args)
    (parsed : (Invocation.parse arguments).toOption = some (.run args))
    (unlisted : args.listRules = false)
    (prepared : (prepare disk args usualSteps).toOption.isSome)
    (collected : let job := (prepare disk args usualSteps).toOption.get prepared
      (collectAll disk job.config args.paths).toOption.isSome)
    (outcomes : List UnitOutcome) : Work disk arguments usualSteps where
  args
  job := (prepare disk args usualSteps).toOption.get prepared
  set := Option.get _ collected
  outcomes
  parsed := eq_ok_of_toOption parsed
  unlisted
  prepared := eq_ok_of_toOption (Option.some_get prepared).symm
  collected := eq_ok_of_toOption (Option.some_get collected).symm

def Session.ofWork {disk : Disk} {arguments : List String} {steps : Nat}
    (work : Work disk arguments steps)
    (processed : (Batch.process work.job.rules work.job.engine work.job.config.symbols false
      work.units).toOption.isSome) : Session disk arguments steps where
  toWork := { work with outcomes := (Option.get _ processed).1 }
  cancelled := (Option.get _ processed).2
  processed := eq_ok_of_toOption (Option.some_get processed).symm

-- The configuration that renames the function `foo`.
def renamingConfig : String :=
  "[[rules]]\nid = \"rename_function\"\nparams = \x7b mappings = \x7b foo = \"bar\" \x7d \x7d\n"

-- A project that renames a function, with a file that cannot be read.
def renamingProject : Disk where
  files :=
    [([".rectify.toml"], .text renamingConfig),
      (["broken.php"], .unreadable "stream did not contain valid UTF-8"),
      (["call.php"], .text "<?php foo();")]

theorem renamingProject_proper : renamingProject.Proper where
  base := nofun
  files := by decide
  apart := by decide

def renamingArguments : List String :=
  ["--fix", "broken.php", "call.php"]

def renamingSession : Session renamingProject renamingArguments usualSteps :=
  .ofWork (.ofArgs { paths := ["broken.php", "call.php"], fix := true } (by decide +kernel) rfl
    (by decide +kernel) (by decide +kernel) []) (by decide +kernel)

theorem run_effect_renaming :
    renamingProject.Proper
      ∧ after renamingProject ["--check", "call.php"] = renamingProject
      ∧ (∃ (session : Session renamingProject renamingArguments usualSteps) (unit : SourceUnit)
          (outcome : UnitOutcome), session.Edited ["call.php"] unit outcome
            ∧ (after renamingProject renamingArguments).contents? ["call.php"]
              = some (.text outcome.output))
      ∧ renamingSession.Failed ∧ (run renamingProject renamingArguments).exit = 1 := by
  have checking : Invocation.parse ["--check", "call.php"]
      = .ok (.run { paths := ["call.php"], check := true }) :=
    eq_ok_of_toOption (by decide +kernel)
  have changed : (after renamingProject renamingArguments).contents? ["call.php"]
      ≠ renamingProject.contents? ["call.php"] := by decide +kernel
  have failed : renamingSession.Failed :=
    Or.inl ⟨"broken.php", ["broken.php"],
      .named (by decide) ⟨.unreadable "stream did not contain valid UTF-8", by decide +kernel⟩,
      by decide +kernel, nofun⟩
  obtain ⟨-, -, edits, ends⟩ := run_effect renamingProject_proper renamingArguments usualSteps
  obtain ⟨session, unit, outcome, _, _, edited, held⟩ := edits _ changed
  have unchanged := (run_effect renamingProject_proper ["--check", "call.php"] usualSteps).1
  refine ⟨renamingProject_proper, unchanged fun args parsed => ?_,
    ⟨session, unit, outcome, edited, held⟩, failed,
    (ends renamingSession fun _ _ => rfl).2.1 failed⟩
  rw [checking] at parsed
  cases parsed
  rfl

end Cli

end Codemod
