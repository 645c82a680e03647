import Codemod.Batch
import Codemod.Proofs.Step

/-!
Units in a row. Once a batch is stopped, before it starts or by a unit with an error, the units that
are left are skipped; every unit before that is processed as if it were alone.
-/

namespace Codemod

theorem UnitOutcome.ne_ofSkipped_of_changed {outcome : UnitOutcome}
    (changed : outcome.changed = true) (unit : SourceUnit) : outcome ≠ ofSkipped unit := by
  rintro rfl
  cases changed

theorem UnitOutcome.ne_ofSkipped_of_hasErrors {outcome : UnitOutcome}
    (errors : outcome.hasErrors = true) (unit : SourceUnit) : outcome ≠ ofSkipped unit := by
  rintro rfl
  cases errors

/-- A unit that was processed was not skipped. -/
theorem SourceUnit.skipped_of_process {unit : SourceUnit} {rules : List Rule}
    {options : EngineOptions} {symbols : Symbols} {outcome : UnitOutcome}
    (processed : unit.process rules options symbols = .ok outcome) : outcome.skipped = false := by
  unfold process at processed
  split at processed
  · cases processed
    rfl
  · split at processed
    · cases processed
    · cases processed
      rfl

namespace Batch

variable {rules : List Rule} {options : EngineOptions} {symbols : Symbols}

/-- A batch is stopped that was cancelled at the start, or in which errors stop the rest and a unit
had one. -/
def Stopped (options : EngineOptions) (cancelled : Bool) (outcomes : List UnitOutcome) : Prop :=
  cancelled = true ∨ options.stopOnError = true
    ∧ ∃ outcome ∈ outcomes, outcome.skipped = false ∧ outcome.hasErrors = true

theorem stopped_nil {cancelled : Bool} : Stopped options cancelled [] ↔ cancelled = true := by
  simp [Stopped]

theorem stopped_true (outcomes : List UnitOutcome) : Stopped options true outcomes :=
  Or.inl rfl

/-- A processed unit decides how the batch goes on. -/
theorem stopped_cons {outcome : UnitOutcome} {rest : List UnitOutcome}
    (processed : outcome.skipped = false) :
    Stopped options false (outcome :: rest)
      ↔ Stopped options (options.stopOnError && outcome.hasErrors) rest := by
  simp [Stopped, processed, and_or_left]

/-- What a batch comes to, unit by unit. -/
structure Course (rules : List Rule) (options : EngineOptions) (symbols : Symbols)
    (cancelled : Bool) (units : List SourceUnit) (outcomes : List UnitOutcome) (final : Bool) :
    Prop where
  /-- One outcome for each unit. -/
  length : outcomes.length = units.length
  /-- The units that the batch came to once it was stopped are skipped, and no others … -/
  skipped : ∀ i unit outcome, units[i]? = some unit → outcomes[i]? = some outcome →
    (outcome = .ofSkipped unit ↔ Stopped options cancelled (outcomes.take i))
  /-- … which are processed as if they were alone. -/
  alone : ∀ i unit outcome, units[i]? = some unit → outcomes[i]? = some outcome →
    ¬ Stopped options cancelled (outcomes.take i) →
      unit.process rules options symbols = .ok outcome
  final : final = true ↔ Stopped options cancelled outcomes

theorem course_nil (cancelled : Bool) : Course rules options symbols cancelled [] [] cancelled where
  length := rfl
  skipped := nofun
  alone := nofun
  final := stopped_nil.symm

theorem Course.skip {units : List SourceUnit} {outcomes : List UnitOutcome} {final : Bool}
    (course : Course rules options symbols true units outcomes final) (unit : SourceUnit) :
    Course rules options symbols true (unit :: units) (.ofSkipped unit :: outcomes) final where
  length := congrArg (· + 1) course.length
  skipped i other outcome here there := by
    refine iff_of_true ?_ (stopped_true _)
    cases i with
    | zero =>
        cases here
        cases there
        rfl
    | succ i => exact (course.skipped i other outcome here there).mpr (stopped_true _)
  alone _ _ _ _ _ running := absurd (stopped_true _) running
  final := iff_of_true (course.final.mpr (stopped_true _)) (stopped_true _)

theorem Course.processed {unit : SourceUnit} {outcome : UnitOutcome} {units : List SourceUnit}
    {outcomes : List UnitOutcome} {final : Bool}
    (ended : unit.process rules options symbols = .ok outcome)
    (course : Course rules options symbols (options.stopOnError && outcome.hasErrors) units outcomes
      final) :
    Course rules options symbols false (unit :: units) (outcome :: outcomes) final := by
  have ran := SourceUnit.skipped_of_process ended
  constructor
  · exact congrArg (· + 1) course.length
  · intro i other result here there
    cases i with
    | zero =>
        cases here
        cases there
        refine iff_of_false ?_ (by simp [stopped_nil])
        rintro rfl
        cases ran
    | succ i =>
        rw [List.take_succ_cons, stopped_cons ran]
        exact course.skipped i other result here there
  · intro i other result here there running
    cases i with
    | zero =>
        cases here
        cases there
        exact ended
    | succ i =>
        rw [List.take_succ_cons, stopped_cons ran] at running
        exact course.alone i other result here there running
  · rw [stopped_cons ran]
    exact course.final

/-- A unit was processed that has another outcome than one that was skipped. -/
theorem Course.of_ne_skipped {cancelled final : Bool} {units : List SourceUnit}
    {outcomes : List UnitOutcome}
    (course : Course rules options symbols cancelled units outcomes final) {unit : SourceUnit}
    {outcome : UnitOutcome} (paired : (unit, outcome) ∈ units.zip outcomes)
    (other : outcome ≠ .ofSkipped unit) : unit.process rules options symbols = .ok outcome := by
  obtain ⟨i, found⟩ := List.mem_iff_getElem?.mp paired
  obtain ⟨here, there⟩ := List.getElem?_zip_eq_some.mp found
  exact course.alone i unit outcome here there
    (mt (course.skipped i unit outcome here there).mpr other)

theorem process_true (units : List SourceUnit) :
    process rules options symbols true units = .ok (units.map UnitOutcome.ofSkipped, true) := by
  induction units with
  | nil => rfl
  | cons unit rest ih =>
      rw [process, ih]
      rfl

theorem process_false_eq_ok {unit : SourceUnit} {rest : List SourceUnit}
    {outcomes : List UnitOutcome} {final : Bool} :
    process rules options symbols false (unit :: rest) = .ok (outcomes, final) ↔
      ∃ outcome others, unit.process rules options symbols = .ok outcome
        ∧ process rules options symbols (options.stopOnError && outcome.hasErrors) rest
          = .ok (others, final)
        ∧ outcomes = outcome :: others := by
  rw [process, bind_eq_ok]
  constructor
  · rintro ⟨outcome, alone, ended⟩
    obtain ⟨⟨others, _⟩, later, ⟨⟩⟩ := bind_eq_ok.mp ended
    exact ⟨outcome, others, alone, later, rfl⟩
  · rintro ⟨outcome, others, alone, later, rfl⟩
    exact ⟨outcome, alone, bind_eq_ok.mpr ⟨_, later, rfl⟩⟩

theorem process_course {cancelled final : Bool} {units : List SourceUnit}
    {outcomes : List UnitOutcome}
    (ended : process rules options symbols cancelled units = .ok (outcomes, final)) :
    Course rules options symbols cancelled units outcomes final := by
  induction units generalizing cancelled outcomes final with
  | nil =>
      cases ended
      exact course_nil cancelled
  | cons unit rest ih =>
      cases cancelled with
      | true =>
          rw [process_true] at ended
          cases ended
          exact (ih (process_true rest)).skip unit
      | false =>
          obtain ⟨outcome, others, alone, later, rfl⟩ := process_false_eq_ok.mp ended
          exact .processed alone (ih later)

end Batch

end Codemod
