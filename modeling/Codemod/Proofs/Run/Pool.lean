import Codemod.Proofs.Run.Batch

/-!
Several workers at one batch. Whatever the order in which they go, each unit is skipped or processed
as if it were alone, and the batch is cancelled by the units that errors come from. A unit is skipped
for sure where it is taken up after one with an error has ended; one that is at work by then is
brought to its end. A worker that is alone takes the units in turn, as `process` does.
-/

namespace Codemod.Batch

variable {rules : List Rule} {options : EngineOptions} {symbols : Symbols} {units : List SourceUnit}

theorem Pool.step_taken {pool next : Pool} {i : Nat} :
    Pool.step rules options symbols units pool (.taken i) = some next ↔
      ∃ unit, units[i]? = some unit ∧ pool.tasks[i]? = some .waiting
        ∧ next = { pool with
            tasks := pool.tasks.set i
              (if pool.cancelled then .finished (.ofSkipped unit) else .running) } := by
  rw [Pool.step]
  constructor
  · intro stepped
    split at stepped
    · next unit here waiting =>
        cases stepped
        exact ⟨unit, here, waiting, rfl⟩
    · cases stepped
  · rintro ⟨unit, here, waiting, rfl⟩
    rw [here, waiting]

theorem Pool.step_ended {pool next : Pool} {i : Nat} :
    Pool.step rules options symbols units pool (.ended i) = some next ↔
      ∃ unit outcome, units[i]? = some unit ∧ pool.tasks[i]? = some .running
        ∧ unit.process rules options symbols = .ok outcome
        ∧ next =
          { tasks := pool.tasks.set i (.finished outcome)
            cancelled := pool.cancelled || (options.stopOnError && outcome.hasErrors) } := by
  rw [Pool.step]
  constructor
  · intro stepped
    split at stepped
    · next unit here running =>
        split at stepped
        · next outcome ended =>
            cases stepped
            exact ⟨unit, outcome, here, running, ended, rfl⟩
        · cases stepped
    · cases stepped
  · rintro ⟨unit, outcome, here, running, ended, rfl⟩
    rw [here, running]
    dsimp only
    rw [ended]

theorem finished_of_set {tasks : List Progress} {i j : Nat} {old progress : Progress}
    {outcome : UnitOutcome} (here : tasks[i]? = some old) :
    (tasks.set i progress)[j]? = some (.finished outcome) ↔
      i = j ∧ progress = .finished outcome ∨ i ≠ j ∧ tasks[j]? = some (.finished outcome) := by
  have inside := (List.getElem?_eq_some_iff.mp here).1
  by_cases same : i = j
  · subst same
    simp [List.getElem?_set_self inside]
  · simp [List.getElem?_set_ne same, same]

/-- What is finished stays finished, and a batch that is cancelled stays cancelled. -/
structure Pool.Onward (pool next : Pool) : Prop where
  cancelled : pool.cancelled = true → next.cancelled = true
  finished : ∀ (i : Nat) (outcome : UnitOutcome), pool.tasks[i]? = some (.finished outcome) →
    next.tasks[i]? = some (.finished outcome)

theorem Pool.Onward.refl (pool : Pool) : pool.Onward pool where
  cancelled := id
  finished _ _ := id

theorem Pool.Onward.trans {pool middle next : Pool} (first : pool.Onward middle)
    (second : middle.Onward next) : pool.Onward next where
  cancelled := second.cancelled ∘ first.cancelled
  finished i outcome := second.finished i outcome ∘ first.finished i outcome

theorem Pool.onward_step {pool next : Pool} {event : Event}
    (stepped : Pool.step rules options symbols units pool event = some next) :
    pool.Onward next := by
  cases event with
  | taken i =>
      obtain ⟨unit, _, waiting, rfl⟩ := step_taken.mp stepped
      refine ⟨id, fun j outcome finished =>
        (finished_of_set waiting).mpr (Or.inr ⟨?_, finished⟩)⟩
      rintro rfl
      rw [waiting] at finished
      cases finished
  | ended i =>
      obtain ⟨unit, result, _, running, _, rfl⟩ := step_ended.mp stepped
      refine ⟨fun stopped => by simp [stopped], fun j outcome finished =>
        (finished_of_set running).mpr (Or.inr ⟨?_, finished⟩)⟩
      rintro rfl
      rw [running] at finished
      cases finished

theorem foldlM_cons_eq_some {α β : Type} {step : β → α → Option β} {first : α} {rest : List α}
    {start last : β} :
    (first :: rest).foldlM step start = some last ↔
      ∃ next, step start first = some next ∧ rest.foldlM step next = some last := by
  rw [List.foldlM_cons]
  exact Option.bind_eq_some_iff

theorem Pool.onward_run {pool last : Pool} {events : List Event}
    (ran : events.foldlM (Pool.step rules options symbols units) pool = some last) :
    pool.Onward last := by
  induction events generalizing pool with
  | nil =>
      cases ran
      exact .refl _
  | cons event rest ih =>
      obtain ⟨next, stepped, ran⟩ := foldlM_cons_eq_some.mp ran
      exact (onward_step stepped).trans (ih ran)

/-- Every unit that is finished was skipped because of the flag, or is processed as if it were alone, and
the flag is up for a reason. -/
structure Pool.Sound (rules : List Rule) (options : EngineOptions) (symbols : Symbols)
    (units : List SourceUnit) (cancelled : Bool) (pool : Pool) : Prop where
  length : pool.tasks.length = units.length
  alone : ∀ (i : Nat) unit outcome, units[i]? = some unit →
    pool.tasks[i]? = some (.finished outcome) → outcome = .ofSkipped unit ∧ pool.cancelled = true
      ∨ unit.process rules options symbols = .ok outcome
  flag : pool.cancelled = true ↔ cancelled = true ∨ options.stopOnError = true
    ∧ ∃ (i : Nat) (outcome : UnitOutcome), pool.tasks[i]? = some (.finished outcome)
      ∧ outcome.skipped = false ∧ outcome.hasErrors = true

theorem Pool.ofUnits_unfinished {cancelled : Bool} {i : Nat} {outcome : UnitOutcome} :
    (Pool.ofUnits cancelled units).tasks[i]? ≠ some (.finished outcome) := by
  intro same
  obtain ⟨_, _, waits⟩ := List.mem_map.mp (List.mem_of_getElem? same)
  cases waits

theorem Pool.sound_ofUnits (cancelled : Bool) (units : List SourceUnit) :
    (Pool.ofUnits cancelled units).Sound rules options symbols units cancelled where
  length := List.length_map _
  alone _ _ _ _ finished := absurd finished ofUnits_unfinished
  flag := by
    refine (or_iff_left ?_).symm
    rintro ⟨_, i, outcome, finished, _⟩
    exact ofUnits_unfinished finished

theorem Pool.Sound.taken {cancelled : Bool} {pool next : Pool} {i : Nat}
    (sound : pool.Sound rules options symbols units cancelled)
    (stepped : Pool.step rules options symbols units pool (.taken i) = some next) :
    next.Sound rules options symbols units cancelled := by
  have onward := onward_step stepped
  obtain ⟨unit, here, waiting, rfl⟩ := step_taken.mp stepped
  constructor
  · simpa using sound.length
  · intro j other outcome there finished
    rcases (finished_of_set waiting).mp finished with ⟨rfl, skipped⟩ | ⟨_, finished⟩
    · rw [here] at there
      cases there
      split at skipped
      · next stopped =>
          cases skipped
          exact Or.inl ⟨rfl, stopped⟩
      · cases skipped
    · exact sound.alone j other outcome there finished
  · refine sound.flag.trans (or_congr_right (and_congr_right fun _ => ⟨?_, ?_⟩))
    · rintro ⟨j, outcome, finished, failed⟩
      exact ⟨j, outcome, onward.finished j outcome finished, failed⟩
    · rintro ⟨j, outcome, finished, ran, errors⟩
      rcases (finished_of_set waiting).mp finished with ⟨_, skipped⟩ | ⟨_, finished⟩
      · -- A unit that is skipped has no error.
        split at skipped
        · cases skipped
          cases ran
        · cases skipped
      · exact ⟨j, outcome, finished, ran, errors⟩

theorem Pool.Sound.ended {cancelled : Bool} {pool next : Pool} {i : Nat}
    (sound : pool.Sound rules options symbols units cancelled)
    (stepped : Pool.step rules options symbols units pool (.ended i) = some next) :
    next.Sound rules options symbols units cancelled := by
  have onward := onward_step stepped
  obtain ⟨unit, result, here, running, ended, rfl⟩ := step_ended.mp stepped
  constructor
  · simpa using sound.length
  · intro j other outcome there finished
    rcases (finished_of_set running).mp finished with ⟨rfl, same⟩ | ⟨_, finished⟩
    · rw [here] at there
      cases there
      cases same
      exact Or.inr ended
    · exact (sound.alone j other outcome there finished).imp_left fun ⟨skipped, stopped⟩ =>
        ⟨skipped, onward.cancelled stopped⟩
  · rw [Bool.or_eq_true, sound.flag, Bool.and_eq_true]
    constructor
    · rintro ((given | ⟨stops, j, outcome, finished, failed⟩) | ⟨stops, errors⟩)
      · exact Or.inl given
      · exact Or.inr ⟨stops, j, outcome, onward.finished j outcome finished, failed⟩
      · exact Or.inr ⟨stops, i, result, (finished_of_set running).mpr (Or.inl ⟨rfl, rfl⟩),
          SourceUnit.skipped_of_process ended, errors⟩
    · rintro (given | ⟨stops, j, outcome, finished, failed⟩)
      · exact Or.inl (Or.inl given)
      · rcases (finished_of_set running).mp finished with ⟨_, same⟩ | ⟨_, finished⟩
        · cases same
          exact Or.inr ⟨stops, failed.2⟩
        · exact Or.inl (Or.inr ⟨stops, j, outcome, finished, failed⟩)

theorem Pool.Sound.step {cancelled : Bool} {pool next : Pool} {event : Event}
    (sound : pool.Sound rules options symbols units cancelled)
    (stepped : Pool.step rules options symbols units pool event = some next) :
    next.Sound rules options symbols units cancelled := by
  cases event with
  | taken i => exact sound.taken stepped
  | ended i => exact sound.ended stepped

theorem Pool.Sound.run {cancelled : Bool} {pool last : Pool} {events : List Event}
    (sound : pool.Sound rules options symbols units cancelled)
    (ran : events.foldlM (Pool.step rules options symbols units) pool = some last) :
    last.Sound rules options symbols units cancelled := by
  induction events generalizing pool with
  | nil =>
      cases ran
      exact sound
  | cons event rest ih =>
      obtain ⟨next, stepped, ran⟩ := foldlM_cons_eq_some.mp ran
      exact ih (sound.step stepped) ran

theorem mapM_outcome? {tasks : List Progress} {outcomes : List UnitOutcome} :
    tasks.mapM Progress.outcome? = some outcomes ↔ tasks = outcomes.map .finished := by
  induction tasks generalizing outcomes with
  | nil => simp [eq_comm]
  | cons progress rest ih =>
      rw [List.mapM_cons]
      constructor
      · intro ran
        obtain ⟨first, here, ran⟩ := Option.bind_eq_some_iff.mp ran
        obtain ⟨others, later, ⟨⟩⟩ := Option.bind_eq_some_iff.mp ran
        cases progress with
        | finished outcome =>
            cases here
            rw [ih.mp later, List.map_cons]
        | waiting | running => cases here
      · intro same
        cases outcomes with
        | nil => cases same
        | cons first others =>
            obtain ⟨rfl, later⟩ := List.cons.inj same
            exact Option.bind_eq_some_iff.mpr
              ⟨first, rfl, Option.bind_eq_some_iff.mpr ⟨others, ih.mpr later, rfl⟩⟩

theorem processOn_eq_some {cancelled final : Bool} {events : List Event}
    {outcomes : List UnitOutcome} :
    processOn rules options symbols cancelled units events = some (outcomes, final) ↔
      events.foldlM (Pool.step rules options symbols units) (.ofUnits cancelled units)
        = some ⟨outcomes.map .finished, final⟩ := by
  rw [processOn]
  constructor
  · intro ended
    obtain ⟨⟨tasks, flag⟩, ran, ended⟩ := Option.bind_eq_some_iff.mp ended
    obtain ⟨found, listed, ⟨⟩⟩ := Option.bind_eq_some_iff.mp ended
    rw [ran, ← mapM_outcome?.mp listed]
  · intro ran
    rw [ran]
    exact Option.bind_eq_some_iff.mpr
      ⟨_, rfl, Option.bind_eq_some_iff.mpr ⟨outcomes, mapM_outcome?.mpr rfl, rfl⟩⟩

/-- What a batch comes to with any number of workers. -/
structure Spread (rules : List Rule) (options : EngineOptions) (symbols : Symbols)
    (cancelled : Bool) (units : List SourceUnit) (outcomes : List UnitOutcome) (final : Bool) :
    Prop where
  length : outcomes.length = units.length
  /-- Units are skipped in a stopped batch only; the others are processed as if they were alone. -/
  alone : ∀ (i : Nat) unit outcome, units[i]? = some unit → outcomes[i]? = some outcome →
    outcome = .ofSkipped unit ∧ Stopped options cancelled outcomes
      ∨ unit.process rules options symbols = .ok outcome
  final : final = true ↔ Stopped options cancelled outcomes

theorem spread_of_processOn {cancelled final : Bool} {events : List Event}
    {outcomes : List UnitOutcome}
    (ended : processOn rules options symbols cancelled units events = some (outcomes, final)) :
    Spread rules options symbols cancelled units outcomes final := by
  have sound := (Pool.sound_ofUnits cancelled units).run (processOn_eq_some.mp ended)
  have finished {i : Nat} {outcome : UnitOutcome} :
      (outcomes.map Progress.finished)[i]? = some (.finished outcome)
        ↔ outcomes[i]? = some outcome := by
    simp
  have stopped : final = true ↔ Stopped options cancelled outcomes := by
    rw [sound.flag, Stopped]
    refine or_congr_right (and_congr_right fun _ => ?_)
    constructor
    · rintro ⟨i, outcome, here, failed⟩
      exact ⟨outcome, List.mem_of_getElem? (finished.mp here), failed⟩
    · rintro ⟨outcome, listed, failed⟩
      obtain ⟨i, here⟩ := List.mem_iff_getElem?.mp listed
      exact ⟨i, outcome, finished.mpr here, failed⟩
  refine ⟨by simpa using sound.length, fun i unit outcome here there => ?_, stopped⟩
  refine (sound.alone i unit outcome here (finished.mpr there)).imp_left ?_
  rintro ⟨skipped, flag⟩
  exact ⟨skipped, stopped.mp flag⟩

/-- Each event of a run has its step, with what goes on before and after it. -/
theorem Pool.step_of_mem {pool last : Pool} {events : List Event} {event : Event}
    (ran : events.foldlM (Pool.step rules options symbols units) pool = some last)
    (listed : event ∈ events) :
    ∃ before after, pool.Onward before
      ∧ Pool.step rules options symbols units before event = some after ∧ after.Onward last := by
  induction events generalizing pool with
  | nil => cases listed
  | cons first rest ih =>
      obtain ⟨next, stepped, goes⟩ := foldlM_cons_eq_some.mp ran
      rcases List.mem_cons.mp listed with rfl | later
      · exact ⟨pool, next, .refl pool, stepped, onward_run goes⟩
      · obtain ⟨before, after, earlier, further⟩ := ih goes later
        exact ⟨before, after, (onward_step stepped).trans earlier, further⟩

theorem Pool.cancelled_of_ended {pool last : Pool} {events : List Event} {i : Nat}
    {unit : SourceUnit} {outcome : UnitOutcome}
    (ran : events.foldlM (Pool.step rules options symbols units) pool = some last)
    (listed : .ended i ∈ events) (here : units[i]? = some unit)
    (ended : unit.process rules options symbols = .ok outcome)
    (stops : options.stopOnError = true) (errors : outcome.hasErrors = true) :
    last.cancelled = true := by
  obtain ⟨before, after, _, stepped, later⟩ := step_of_mem ran listed
  obtain ⟨other, result, there, _, processed, rfl⟩ := step_ended.mp stepped
  cases here.symm.trans there
  cases ended.symm.trans processed
  exact later.cancelled (by simp [stops, errors])

theorem Pool.skipped_of_cancelled {pool last : Pool} {events : List Event} {i : Nat}
    {unit : SourceUnit}
    (ran : events.foldlM (Pool.step rules options symbols units) pool = some last)
    (stopped : pool.cancelled = true) (listed : .taken i ∈ events) (here : units[i]? = some unit) :
    last.tasks[i]? = some (.finished (.ofSkipped unit)) := by
  obtain ⟨before, after, earlier, stepped, later⟩ := step_of_mem ran listed
  obtain ⟨other, there, waiting, rfl⟩ := step_taken.mp stepped
  cases here.symm.trans there
  refine later.finished i _ ((finished_of_set waiting).mpr (Or.inl ⟨rfl, ?_⟩))
  rw [if_pos (earlier.cancelled stopped)]

/-- Where errors stop the rest, a unit is skipped that is taken up after one with an error ended. -/
theorem skipped_behind {cancelled final : Bool} {events : List Event}
    {outcomes : List UnitOutcome}
    (ended : processOn rules options symbols cancelled units events = some (outcomes, final))
    (stops : options.stopOnError = true) {i j : Nat} {failed : UnitOutcome}
    (there : outcomes[i]? = some failed) (errors : failed.hasErrors = true)
    (behind : [Event.ended i, .taken j].Sublist events) {unit : SourceUnit} (here : units[j]? = some unit) :
    outcomes[j]? = some (.ofSkipped unit) := by
  have spread := spread_of_processOn ended
  obtain ⟨first, inside⟩ : ∃ first, units[i]? = some first :=
    ⟨_, List.getElem?_eq_getElem (spread.length ▸ (List.getElem?_eq_some_iff.mp there).1)⟩
  have processed : first.process rules options symbols = .ok failed :=
    (spread.alone i first failed inside there).resolve_left fun skipped =>
      UnitOutcome.ne_ofSkipped_of_hasErrors errors first skipped.1
  -- The flag is up once the unit with the error has ended, and then the other one is taken up.
  obtain ⟨front, back, rfl, before, after⟩ := List.cons_sublist_iff.mp behind
  have ran := processOn_eq_some.mp ended
  rw [List.foldlM_append] at ran
  obtain ⟨middle, ranFront, ranBack⟩ := Option.bind_eq_some_iff.mp ran
  have stopped := Pool.cancelled_of_ended ranFront before inside processed stops errors
  have skipped := Pool.skipped_of_cancelled ranBack stopped
    (List.singleton_sublist.mp after) here
  simpa using skipped

def Event.index : Event → Nat
  | .taken index | .ended index => index

/-- The events of a worker that is alone: no unit before the ones in front of it are finished. -/
def InTurn (events : List Event) : Prop :=
  events.Pairwise fun earlier later => earlier.index ≤ later.index

instance (events : List Event) : Decidable (InTurn events) :=
  inferInstanceAs (Decidable (events.Pairwise _))

theorem InTurn.sublist {events : List Event} (turn : InTurn events) {first second : Event}
    (one : first ∈ events) (two : second ∈ events) (less : first.index < second.index) :
    [first, second].Sublist events := by
  induction events with
  | nil => cases one
  | cons event rest ih =>
      obtain ⟨ahead, turn⟩ := List.pairwise_cons.mp turn
      rcases List.mem_cons.mp one with rfl | one
      · rcases List.mem_cons.mp two with rfl | two
        · exact absurd less (Nat.lt_irrefl _)
        · exact (List.singleton_sublist.mpr two).cons_cons _
      · rcases List.mem_cons.mp two with rfl | two
        · exact absurd (ahead first ‹_›) (Nat.not_le_of_lt less)
        · exact (ih turn one two).cons _

/-- What holds at the end of a run and did not at the start was brought about by one of its events. -/
theorem Pool.exists_change (holds : Pool → Prop) {pool last : Pool} {events : List Event}
    (ran : events.foldlM (Pool.step rules options symbols units) pool = some last)
    (start : ¬ holds pool) (final : holds last) :
    ∃ event ∈ events, ∃ before after, Pool.step rules options symbols units before event = some after
      ∧ ¬ holds before ∧ holds after := by
  induction events generalizing pool with
  | nil =>
      cases ran
      exact absurd final start
  | cons event rest ih =>
      obtain ⟨next, stepped, ran⟩ := foldlM_cons_eq_some.mp ran
      by_cases now : holds next
      · exact ⟨event, List.mem_cons_self, pool, next, stepped, start, now⟩
      · obtain ⟨other, later, change⟩ := ih ran now
        exact ⟨other, List.mem_cons_of_mem _ later, change⟩

theorem Pool.mem_taken {pool last : Pool} {events : List Event} {i : Nat}
    (ran : events.foldlM (Pool.step rules options symbols units) pool = some last)
    (waiting : pool.tasks[i]? = some .waiting) (moved : last.tasks[i]? ≠ some .waiting) :
    .taken i ∈ events := by
  obtain ⟨event, listed, before, after, stepped, waited, moves⟩ :=
    exists_change (fun pool => pool.tasks[i]? ≠ some .waiting) ran (Classical.not_not.mpr waiting) moved
  have waits : before.tasks[i]? = some .waiting := Classical.not_not.mp waited
  cases event with
  | taken j =>
      obtain ⟨_, _, _, rfl⟩ := step_taken.mp stepped
      by_cases own : j = i
      · exact own ▸ listed
      · rw [List.getElem?_set_ne own] at moves
        exact absurd waits moves
  | ended j =>
      obtain ⟨_, _, _, running, _, rfl⟩ := step_ended.mp stepped
      have other : j ≠ i := by
        rintro rfl
        cases waits.symm.trans running
      rw [List.getElem?_set_ne other] at moves
      exact absurd waits moves

theorem Pool.mem_ended {pool last : Pool} {events : List Event} {i : Nat} {outcome : UnitOutcome}
    (ran : events.foldlM (Pool.step rules options symbols units) pool = some last)
    (unfinished : pool.tasks[i]? ≠ some (.finished outcome))
    (finished : last.tasks[i]? = some (.finished outcome)) (processed : outcome.skipped = false) :
    .ended i ∈ events := by
  obtain ⟨event, listed, before, after, stepped, earlier, reached⟩ :=
    exists_change (fun pool => pool.tasks[i]? = some (.finished outcome)) ran unfinished finished
  cases event with
  | taken j =>
      obtain ⟨_, _, waiting, rfl⟩ := step_taken.mp stepped
      rcases (finished_of_set waiting).mp reached with ⟨_, skipped⟩ | ⟨_, same⟩
      · split at skipped
        · cases skipped
          cases processed
        · cases skipped
      · exact absurd same earlier
  | ended j =>
      obtain ⟨_, _, _, running, _, rfl⟩ := step_ended.mp stepped
      rcases (finished_of_set running).mp reached with ⟨same, _⟩ | ⟨_, same⟩
      · exact same ▸ listed
      · exact absurd same earlier

/-- With one worker that is every unit behind the one with the error. -/
theorem InTurn.behind {cancelled final : Bool} {events : List Event} {outcomes : List UnitOutcome}
    (turn : InTurn events)
    (ended : processOn rules options symbols cancelled units events = some (outcomes, final))
    {i j : Nat} {failed : UnitOutcome} (there : outcomes[i]? = some failed)
    (errors : failed.hasErrors = true) (less : i < j) (inside : j < units.length) :
    [Event.ended i, .taken j].Sublist events := by
  have ran := processOn_eq_some.mp ended
  have spread := spread_of_processOn ended
  have reached (k : Nat) (outcome : UnitOutcome) (here : outcomes[k]? = some outcome) :
      (outcomes.map Progress.finished)[k]? = some (.finished outcome) := by simp [here]
  have processed : failed.skipped = false := by
    obtain ⟨unit, here⟩ : ∃ unit, units[i]? = some unit :=
      ⟨_, List.getElem?_eq_getElem (Nat.lt_trans less inside)⟩
    rcases spread.alone i unit failed here there with ⟨rfl, _⟩ | alone
    · cases errors
    · exact SourceUnit.skipped_of_process alone
  have first : .ended i ∈ events :=
    Pool.mem_ended ran Pool.ofUnits_unfinished (reached i failed there) processed
  have second : .taken j ∈ events := by
    refine Pool.mem_taken ran (by simp [Pool.ofUnits, inside]) ?_
    rw [reached j _ (List.getElem?_eq_getElem (spread.length ▸ inside))]
    simp
  exact turn.sublist first second less

theorem set_next {before : List UnitOutcome} {n : Nat} (length : before.length = n)
    (tasks : List Progress) (old progress : Progress) :
    (before.map Progress.finished ++ old :: tasks)[n]? = some old
      ∧ (before.map Progress.finished ++ old :: tasks).set n progress
        = before.map Progress.finished ++ progress :: tasks := by
  subst length
  constructor
  · simp
  · rw [List.set_append_right _ _ (by simp), List.length_map, Nat.sub_self, List.set_cons_zero]

section

variable {front rest : List SourceUnit} {unit : SourceUnit} {before : List UnitOutcome}
  {tasks : List Progress} (length : before.length = front.length)

include length

theorem step_skip :
    Pool.step rules options symbols (front ++ unit :: rest)
        ⟨before.map .finished ++ .waiting :: tasks, true⟩ (.taken front.length)
      = some ⟨(before ++ [UnitOutcome.ofSkipped unit]).map .finished ++ tasks, true⟩ := by
  obtain ⟨waiting, set⟩ := set_next length tasks .waiting (.finished (.ofSkipped unit))
  refine Pool.step_taken.mpr ⟨unit, by simp, waiting, ?_⟩
  rw [if_pos rfl, set]
  simp

theorem steps_process {outcome : UnitOutcome}
    (ended : unit.process rules options symbols = .ok outcome) :
    [Event.taken front.length, .ended front.length].foldlM
        (Pool.step rules options symbols (front ++ unit :: rest))
        ⟨before.map .finished ++ .waiting :: tasks, false⟩
      = some
          ⟨(before ++ [outcome]).map .finished ++ tasks,
            options.stopOnError && outcome.hasErrors⟩ := by
  have here : (front ++ unit :: rest)[front.length]? = some unit := by simp
  obtain ⟨waiting, take⟩ := set_next length tasks .waiting .running
  obtain ⟨running, finish⟩ := set_next length tasks .running (.finished outcome)
  refine foldlM_cons_eq_some.mpr ⟨⟨before.map .finished ++ .running :: tasks, false⟩, ?_, ?_⟩
  · refine Pool.step_taken.mpr ⟨unit, here, waiting, ?_⟩
    rw [if_neg Bool.false_ne_true, take]
  · refine foldlM_cons_eq_some.mpr ⟨_, ?_, rfl⟩
    refine Pool.step_ended.mpr ⟨unit, outcome, here, running, ended, ?_⟩
    rw [finish]
    simp

end

theorem turn_append {steps events : List Event} {n : Nat}
    (own : ∀ event ∈ steps, event.index = n) (turn : InTurn events)
    (behind : ∀ event ∈ events, n + 1 ≤ event.index) :
    InTurn (steps ++ events) ∧ ∀ event ∈ steps ++ events, n ≤ event.index := by
  constructor
  · refine List.pairwise_append.mpr ⟨?_, turn, fun first one second two => ?_⟩
    · exact List.pairwise_of_forall_mem_list fun first one second two =>
        Nat.le_of_eq ((own first one).trans (own second two).symm)
    · exact Nat.le_of_lt (own first one ▸ behind second two)
  · intro event listed
    rcases List.mem_append.mp listed with one | two
    · exact Nat.le_of_eq (own event one).symm
    · exact Nat.le_of_lt (behind event two)

/-- The events of the units from an index on, taken in turn. -/
theorem exists_turn {cancelled final : Bool} {front back : List SourceUnit}
    {before outcomes : List UnitOutcome} (length : before.length = front.length)
    (ended : process rules options symbols cancelled back = .ok (outcomes, final)) :
    ∃ events, (InTurn events ∧ ∀ event ∈ events, front.length ≤ event.index)
      ∧ events.foldlM (Pool.step rules options symbols (front ++ back))
          ⟨before.map .finished ++ back.map fun _ => .waiting, cancelled⟩
        = some ⟨(before ++ outcomes).map .finished, final⟩ := by
  -- The units in front are finished; each step of the induction adds the first of those behind to them.
  induction back generalizing cancelled front before outcomes with
  | nil =>
      cases ended
      exact ⟨[], ⟨.nil, nofun⟩, by simp⟩
  | cons unit rest ih =>
      have longer (outcome : UnitOutcome) :
          (before ++ [outcome]).length = (front ++ [unit]).length := by simp [length]
      cases cancelled with
      | true =>
          rw [process_true] at ended
          cases ended
          obtain ⟨events, ⟨turn, behind⟩, ran⟩ := ih (longer (.ofSkipped unit)) (process_true rest)
          rw [List.length_append] at behind
          rw [← List.append_cons, ← List.append_cons] at ran
          refine ⟨[.taken front.length] ++ events, turn_append (by simp [Event.index]) turn behind, ?_⟩
          rw [List.foldlM_append]
          exact Option.bind_eq_some_iff.mpr
            ⟨_, foldlM_cons_eq_some.mpr ⟨_, step_skip length, rfl⟩, ran⟩
      | false =>
          obtain ⟨outcome, others, alone, later, rfl⟩ := process_false_eq_ok.mp ended
          obtain ⟨events, ⟨turn, behind⟩, ran⟩ := ih (longer outcome) later
          rw [List.length_append] at behind
          rw [← List.append_cons, ← List.append_cons] at ran
          refine ⟨[.taken front.length, .ended front.length] ++ events,
            turn_append (by simp [Event.index]) turn behind, ?_⟩
          rw [List.foldlM_append]
          exact Option.bind_eq_some_iff.mpr ⟨_, steps_process length alone, ran⟩

/-- What `process` comes to is what one worker comes to. -/
theorem processOn_of_process {cancelled final : Bool} {outcomes : List UnitOutcome}
    (ended : process rules options symbols cancelled units = .ok (outcomes, final)) :
    ∃ events, InTurn events
      ∧ processOn rules options symbols cancelled units events = some (outcomes, final) := by
  have start : ([] : List UnitOutcome).length = ([] : List SourceUnit).length := rfl
  obtain ⟨events, ⟨turn, _⟩, ran⟩ := exists_turn start ended
  exact ⟨events, turn, processOn_eq_some.mpr ran⟩

end Codemod.Batch
