import Codemod.SourceUnit

/-!
Units in a batch. Once the batch is cancelled the units left are skipped; with `stopOnError` a unit
with an error cancels it. One worker takes the units one after the other (`process`). Several
workers share nothing but the flag that says whether the batch is cancelled: in which order they
take up units and come to their end is given as a list of events (`processOn`).
-/

namespace Codemod.Batch

-- Outcomes in the order of the units, and whether the batch was cancelled at the end.
def process (rules : List Rule) (options : EngineOptions) (symbols : Symbols) :
    Bool → List SourceUnit → Except Stop (List UnitOutcome × Bool)
  | cancelled, [] => .ok ([], cancelled)
  | true, unit :: rest => do
      let (outcomes, cancelled) ← process rules options symbols true rest
      return (.ofSkipped unit :: outcomes, cancelled)
  | false, unit :: rest => do
      let outcome ← unit.process rules options symbols
      let (outcomes, cancelled) ←
        process rules options symbols (options.stopOnError && outcome.hasErrors) rest
      return (outcome :: outcomes, cancelled)

-- A worker takes up the unit at an index, or has processed it.
inductive Event where
  | taken (index : Nat)
  | ended (index : Nat)
deriving DecidableEq, Repr

inductive Progress where
  | waiting
  | running
  | finished (outcome : UnitOutcome)
deriving DecidableEq, Repr

def Progress.outcome? : Progress → Option UnitOutcome
  | .finished outcome => some outcome
  | _ => none

structure Pool where
  tasks : List Progress
  cancelled : Bool
deriving DecidableEq, Repr

def Pool.ofUnits (cancelled : Bool) (units : List SourceUnit) : Pool where
  tasks := units.map fun _ => .waiting
  cancelled

/-- A worker looks at the flag when it takes up a unit, and not while it is at work on one. -/
def Pool.step (rules : List Rule) (options : EngineOptions) (symbols : Symbols)
    (units : List SourceUnit) (pool : Pool) : Event → Option Pool
  | .taken index =>
      match units[index]?, pool.tasks[index]? with
      | some unit, some .waiting =>
          let progress := if pool.cancelled then .finished (.ofSkipped unit) else .running
          some { pool with tasks := pool.tasks.set index progress }
      | _, _ => none
  | .ended index =>
      match units[index]?, pool.tasks[index]? with
      | some unit, some .running =>
          match unit.process rules options symbols with
          | .ok outcome =>
              some
                { tasks := pool.tasks.set index (.finished outcome)
                  cancelled := pool.cancelled || (options.stopOnError && outcome.hasErrors) }
          | .error _ => none
      | _, _ => none

-- Outcomes in the order of the units, for events that bring every unit to its end.
def processOn (rules : List Rule) (options : EngineOptions) (symbols : Symbols) (cancelled : Bool)
    (units : List SourceUnit) (events : List Event) : Option (List UnitOutcome × Bool) := do
  let pool ← events.foldlM (Pool.step rules options symbols units) (.ofUnits cancelled units)
  let outcomes ← pool.tasks.mapM Progress.outcome?
  return (outcomes, pool.cancelled)

end Codemod.Batch
