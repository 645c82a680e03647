import Codemod.Proofs.Cli.Effect
import Codemod.Proofs.Run.Pool

/-!
What `--stop-on-error` stops. Files are read before the first of them is processed, and processed by
several workers. An error in processing a file keeps every file as it is that is taken up afterwards,
which with one worker are all files behind it. A file that cannot be read keeps none.
-/

namespace Codemod.Cli

open Disk Batch

variable {disk : Disk} {arguments : List String} {steps : Nat}

theorem readUnits_append (disk : Disk) (front back : List String) :
    (readUnits disk (front ++ back)).1 = (readUnits disk front).1 ++ (readUnits disk back).1 := by
  induction front with
  | nil => rfl
  | cons path rest ih =>
      rw [List.cons_append, readUnits, readUnits]
      cases disk.read path with
      | error reason => exact ih
      | ok source =>
          dsimp only
          rw [ih, List.cons_append]

/-- A file that cannot be read gives no unit. -/
theorem readUnits_unreadable {path reason : String} (unread : disk.read path = .error reason)
    (front back : List String) :
    (readUnits disk (front ++ path :: back)).1 = (readUnits disk (front ++ back)).1 := by
  rw [readUnits_append, readUnits_append, readUnits, unread]

/-- A run in which the files are processed by any number of workers. -/
structure Shift (disk : Disk) (arguments : List String) (steps : Nat) extends
    Work disk arguments steps where
  events : List Event
  cancelled : Bool
  ended : processOn job.rules job.engine job.config.symbols false (readUnits disk set.files).1 events
    = some (outcomes, cancelled)

def Shift.ofWork (work : Work disk arguments steps) (events : List Event)
    (ended : (processOn work.job.rules work.job.engine work.job.config.symbols false work.units
      events).isSome) : Shift disk arguments steps where
  toWork := { work with outcomes := (Option.get _ ended).1 }
  events
  cancelled := (Option.get _ ended).2
  ended := (Option.some_get ended).symm

def Shift.after (shift : Shift disk arguments steps) : Disk :=
  disk.writeAll shift.output.writes

/-- A session is the shift of one worker. -/
theorem Session.exists_shift (session : Session disk arguments steps) :
    ∃ shift : Shift disk arguments steps, InTurn shift.events ∧ shift.toWork = session.toWork
      ∧ shift.after = after disk arguments steps := by
  obtain ⟨events, turn, ended⟩ := processOn_of_process session.processed
  refine ⟨{ session.toWork with events, cancelled := session.cancelled, ended }, turn, rfl, ?_⟩
  rw [Cli.after, session.run_eq]
  rfl

def Work.Fails (work : Work disk arguments steps) (index : Nat) : Prop :=
  ∃ outcome, work.outcomes[index]? = some outcome ∧ outcome.hasErrors = true

def Work.Leads (work : Work disk arguments steps) (index : Nat) (place : List String) : Prop :=
  ∃ unit, work.units[index]? = some unit ∧ disk.LeadsTo unit.id place

namespace Shift

variable (shift : Shift disk arguments steps)

/-- What is written at a place comes from a unit there that was not skipped. -/
theorem contents?_after (place : List String) :
    shift.after.contents? place = disk.contents? place
      ∨ ∃ index unit outcome, shift.Leads index place ∧ shift.units[index]? = some unit
        ∧ shift.outcomes[index]? = some outcome ∧ outcome ≠ .ofSkipped unit := by
  rcases disk.contents?_writeAll shift.output.writes place with same | ⟨entry, written, leads, _⟩
  · exact Or.inl same
  · obtain ⟨_, unit, outcome, paired, changed, rfl⟩ := shift.mem_writes.mp written
    obtain ⟨index, found⟩ := List.mem_iff_getElem?.mp paired
    obtain ⟨here, there⟩ := List.getElem?_zip_eq_some.mp found
    exact Or.inr ⟨index, unit, outcome, ⟨unit, here, leads⟩, here, there,
      UnitOutcome.ne_ofSkipped_of_changed changed unit⟩

theorem kept_behind (stops : shift.args.stopOnError = true) {failed : Nat}
    (fails : shift.Fails failed) {place : List String}
    (behind : ∀ index, shift.Leads index place →
      [Event.ended failed, .taken index].Sublist shift.events) :
    shift.after.contents? place = disk.contents? place := by
  refine (shift.contents?_after place).resolve_right ?_
  rintro ⟨index, unit, outcome, leads, here, there, ran⟩
  have stopping : shift.job.engine.stopOnError = true := by
    rw [(settled_of_prepare shift.prepared).engine]
    exact stops
  obtain ⟨failure, wrong, errors⟩ := fails
  have skipped := skipped_behind shift.ended stopping wrong errors (behind index leads) here
  exact ran (Option.some.inj (there.symm.trans skipped))

theorem kept_in_turn (stops : shift.args.stopOnError = true) (turn : InTurn shift.events)
    {failed : Nat} (fails : shift.Fails failed) {place : List String}
    (behind : ∀ index, shift.Leads index place → failed < index) :
    shift.after.contents? place = disk.contents? place := by
  refine shift.kept_behind stops fails fun index leads => ?_
  obtain ⟨failure, wrong, errors⟩ := fails
  have less := behind index leads
  obtain ⟨unit, here, _⟩ := leads
  exact turn.behind shift.ended wrong errors less (List.getElem?_eq_some_iff.mp here).1

end Shift

/-- A file keeps its contents that is taken up after the end of one with an error in processing,
and with one worker these are the files behind it. A file that cannot be read is passed over: the
others are processed as they are without it. -/
theorem stop_on_error (shift : Shift disk arguments steps)
    (stops : shift.args.stopOnError = true) :
    (∀ failed, shift.Fails failed → ∀ place,
        (∀ index, shift.Leads index place →
          [Event.ended failed, .taken index].Sublist shift.events) →
          shift.after.contents? place = disk.contents? place)
      ∧ (InTurn shift.events → ∀ failed, shift.Fails failed → ∀ place,
          (∀ index, shift.Leads index place → failed < index) →
            shift.after.contents? place = disk.contents? place)
      ∧ ∀ front path back reason, shift.set.files = front ++ path :: back →
          disk.read path = .error reason →
            shift.units = (readUnits disk (front ++ back)).1
              ∧ processOn shift.job.rules shift.job.engine shift.job.config.symbols false
                (readUnits disk (front ++ back)).1 shift.events
                = some (shift.outcomes, shift.cancelled) := by
  refine ⟨fun failed fails place behind => shift.kept_behind stops fails behind,
    fun turn failed fails place behind => shift.kept_in_turn stops turn fails behind,
    fun front path back reason taken unread => ?_⟩
  have same := readUnits_unreadable unread front back
  rw [← taken] at same
  rw [← same]
  exact ⟨rfl, shift.ended⟩

-- A project that renames a function, with a file between two others that does not parse.
def stoppingProject : Disk where
  files :=
    [([".rectify.toml"], .text renamingConfig), (["first.php"], .text "<?php foo();"),
      (["later.php"], .text "<?php foo();"), (["wrong.php"], .text "<?php foo(")]

def stoppingArguments : List String :=
  ["--fix", "--stop-on-error", "first.php", "wrong.php", "later.php"]

def stoppingWork : Work stoppingProject stoppingArguments usualSteps :=
  .ofArgs { paths := ["first.php", "wrong.php", "later.php"], fix := true, stopOnError := true }
    (by decide +kernel) rfl (by decide +kernel) (by decide +kernel) []

-- The second of two workers comes to the error while the first is still at work.
def stoppingShift : Shift stoppingProject stoppingArguments usualSteps :=
  .ofWork stoppingWork [.taken 0, .taken 1, .ended 1, .taken 2, .ended 0] (by decide +kernel)

-- The same work with one worker.
def loneShift : Shift stoppingProject stoppingArguments usualSteps :=
  .ofWork stoppingWork [.taken 0, .ended 0, .taken 1, .ended 1, .taken 2] (by decide +kernel)

theorem eq_two_of_leads {work : Work stoppingProject stoppingArguments usualSteps}
    (same : work.units = stoppingWork.units) {index : Nat}
    (leads : work.Leads index ["later.php"]) : index = 2 := by
  have units : stoppingWork.units.map SourceUnit.id = ["first.php", "wrong.php", "later.php"] := by
    decide +kernel
  obtain ⟨unit, here, contents, led⟩ := leads
  have named := congrArg (Option.map SourceUnit.id) here
  rw [same, ← List.getElem?_map, units] at named
  have elsewhere : ∀ path ∈ ["first.php", "wrong.php"],
      (stoppingProject.resolve path).2 ≠ ["later.php"] := by decide +kernel
  match index, named with
  | 0, named =>
      exact absurd (congrArg Prod.snd led) (elsewhere _ (by rw [← Option.some.inj named]; simp))
  | 1, named =>
      exact absurd (congrArg Prod.snd led) (elsewhere _ (by rw [← Option.some.inj named]; simp))
  | 2, _ => rfl

def unreadableArguments : List String :=
  ["--fix", "--stop-on-error", "broken.php", "call.php"]

def unreadableWork : Work renamingProject unreadableArguments usualSteps :=
  .ofArgs { paths := ["broken.php", "call.php"], fix := true, stopOnError := true }
    (by decide +kernel) rfl (by decide +kernel) (by decide +kernel) []

def unreadableSession : Session renamingProject unreadableArguments usualSteps :=
  .ofWork unreadableWork (by decide +kernel)

def unreadableShift : Shift renamingProject unreadableArguments usualSteps :=
  .ofWork unreadableWork [.taken 0, .ended 0] (by decide +kernel)

theorem stop_on_error_wrong :
    stoppingShift.args.stopOnError = true ∧ stoppingShift.Fails 1
      ∧ stoppingShift.after.contents? ["first.php"] = some (.text "<?php bar();")
      ∧ stoppingShift.after.contents? ["later.php"] = some (.text "<?php foo();")
      ∧ loneShift.args.stopOnError = true ∧ loneShift.Fails 1 ∧ InTurn loneShift.events
      ∧ loneShift.after.contents? ["later.php"] = some (.text "<?php foo();")
      ∧ unreadableShift.units = (readUnits renamingProject ["call.php"]).1 := by
  have many : stoppingShift.Fails 1 := Option.map_eq_some_iff.mp (by decide +kernel)
  have one : loneShift.Fails 1 := Option.map_eq_some_iff.mp (by decide +kernel)
  have turn : InTurn loneShift.events := by decide
  have taken : unreadableShift.set.files = [] ++ "broken.php" :: ["call.php"] := by decide +kernel
  have found : renamingProject.find "broken.php"
      = .file (.unreadable "stream did not contain valid UTF-8") := by decide +kernel
  have unread : renamingProject.read "broken.php"
      = .error "stream did not contain valid UTF-8" := by rw [Disk.read, found]
  refine ⟨rfl, many, by decide +kernel, ?_, rfl, one, turn, ?_, ?_⟩
  · refine (stop_on_error stoppingShift rfl).1 1 many ["later.php"] fun index leads => ?_
    rw [eq_two_of_leads rfl leads]
    decide
  · refine (stop_on_error loneShift rfl).2.1 turn 1 one ["later.php"] fun index leads => ?_
    rw [eq_two_of_leads rfl leads]
    decide
  · exact ((stop_on_error unreadableShift rfl).2.2 _ _ _ _ taken unread).1

/-- The first file cannot be read and is reported with an error, and yet the next one is changed. -/
theorem unreadable_stops_nothing :
    unreadableSession.args.fix = true ∧ unreadableSession.args.stopOnError = true
      ∧ unreadableSession.set.files = ["broken.php", "call.php"]
      ∧ (∃ result ∈ unreadableSession.results, result = .failed "broken.php"
          "Failed to read file: broken.php: stream did not contain valid UTF-8")
      ∧ renamingProject.contents? ["call.php"] = some (.text "<?php foo();")
      ∧ (after renamingProject unreadableArguments).contents? ["call.php"]
        = some (.text "<?php bar();") := by
  refine ⟨rfl, rfl, ?_, ?_, rfl, ?_⟩ <;> decide +kernel

end Codemod.Cli
