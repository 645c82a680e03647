import Codemod.Diff.Script

/-!
Tidying a script. Insertions slide over equal lines as far up and then as far down as they can,
and merge with those they meet; then all changes between two kept runs become one block.
-/

namespace Codemod.Diff

namespace Op

def length : Op → Nat
  | .equal _ _ length | .delete _ length _ | .insert _ _ length => length

def earlier (n : Nat) : Op → Op
  | .equal old new length => .equal (old - n) (new - n) length
  | .delete old length new => .delete (old - n) length (new - n)
  | .insert old new length => .insert (old - n) (new - n) length

def later (n : Nat) : Op → Op
  | .equal old new length => .equal (old + n) (new + n) length
  | .delete old length new => .delete (old + n) length (new + n)
  | .insert old new length => .insert (old + n) (new + n) length

def withLength (length : Nat) : Op → Op
  | .equal old new _ => .equal old new length
  | .delete old _ new => .delete old length new
  | .insert old new _ => .insert old new length

def longer (n : Nat) (op : Op) : Op :=
  op.withLength (op.length + n)

def shorter (n : Nat) (op : Op) : Op :=
  op.withLength (op.length - n)

def isEqual : Op → Bool
  | .equal .. => true
  | _ => false

def isDelete : Op → Bool
  | .delete .. => true
  | _ => false

def isInsert : Op → Bool
  | .insert .. => true
  | _ => false

end Op

-- The runs above the current one, nearest first, the current one, and those below it.
structure Focus where
  above : List Op
  current : Op
  below : List Op

def range (lines : List String) (start length : Nat) : List String :=
  (lines.drop start).take length

def sharedEnd (old new : List String) : Op → Op → Nat
  | .equal start _ length, .insert _ index count =>
      commonLength (range old start length).reverse (range new index count).reverse
  | _, _ => 0

def sharedStart (old new : List String) : Op → Op → Nat
  | .equal start _ length, .insert _ index count =>
      commonLength (range old start length) (range new index count)
  | _, _ => 0

def pushNonempty (op : Op) (rest : List Op) : List Op :=
  if op.length = 0 then rest else op :: rest

-- The first of the runs, made longer at its start, where it is kept; else a new kept run.
def growFirst (n : Nat) (fresh : Op) : List Op → List Op
  | .equal old new length :: rest => .equal (old - n) (new - n) (length + n) :: rest
  | rest => fresh :: rest

-- The nearest run above, made longer at its end, where it is kept; else a new kept run.
def growNearest (n : Nat) (fresh : Op) : List Op → List Op
  | .equal old new length :: rest => .equal old new (length + n) :: rest
  | rest => fresh :: rest

namespace Focus

def up (old new : List String) : Nat → Focus → Focus
  | 0, focus => focus
  | _ + 1, ⟨[], current, below⟩ => ⟨[], current, below⟩
  | steps + 1, ⟨previous :: above, current, below⟩ =>
      match previous, current with
      | .equal start _ length, _ =>
          let n := sharedEnd old new previous current
          if 0 < n then
            let fresh := match current with
              | .insert _ index count => Op.equal (start + length - n) (index + count - n) n
              | other => other
            up old new steps
              ⟨pushNonempty (previous.shorter n) above, current.earlier n,
                growFirst n fresh below⟩
          else if length = 0 then up old new steps ⟨above, current, below⟩
          else ⟨previous :: above, current, below⟩
      | .insert .., .insert .. | .delete .., .delete .. =>
          up old new steps ⟨above, previous.longer current.length, below⟩
      | _, _ => up old new steps ⟨above, current, previous :: below⟩

def down (old new : List String) : Nat → Focus → Focus
  | 0, focus => focus
  | _ + 1, ⟨above, current, []⟩ => ⟨above, current, []⟩
  | steps + 1, ⟨above, current, next :: below⟩ =>
      match next, current with
      | .equal start _ length, _ =>
          let n := sharedStart old new next current
          if 0 < n then
            let fresh := match current with
              | .insert _ index _ => Op.equal start index n
              | other => other
            down old new steps
              ⟨growNearest n fresh above, current.later n,
                pushNonempty ((next.later n).shorter n) below⟩
          else if length = 0 then down old new steps ⟨above, current, below⟩
          else ⟨above, current, next :: below⟩
      | .insert .., .insert .. | .delete .., .delete .. =>
          down old new steps ⟨above, current.longer next.length, below⟩
      | _, _ => down old new steps ⟨next :: above, current, below⟩

end Focus

def coveredLines : List Op → Nat
  | [] => 0
  | op :: ops => op.length + coveredLines ops

def slideSteps (ops : List Op) : Nat :=
  coveredLines ops + 2 * ops.length

def slideAll (old new : List String) (chosen : Op → Bool) :
    Nat → List Op → List Op → List Op
  | 0, above, below => above.reverse ++ below
  | _ + 1, above, [] => above.reverse
  | left + 1, above, op :: below =>
      if chosen op then
        let steps := slideSteps (above ++ op :: below)
        let focus := (Focus.up old new steps ⟨above, op, below⟩).down old new steps
        slideAll old new chosen left (focus.current :: focus.above) focus.below
      else slideAll old new chosen left (op :: above) below

def tidy (old new : List String) (ops : List Op) : List Op :=
  let ops := slideAll old new Op.isDelete (slideSteps ops) [] ops
  slideAll old new Op.isInsert (slideSteps ops) [] ops

-- A kept run, or lines deleted and inserted at one place.
inductive Block where
  | equal (old new length : Nat)
  | changed (old oldLength new newLength : Nat)
deriving DecidableEq, Repr

namespace Block

def oldStart : Block → Nat
  | .equal old _ _ | .changed old _ _ _ => old

def newStart : Block → Nat
  | .equal _ new _ | .changed _ _ new _ => new

def oldStop : Block → Nat
  | .equal old _ length => old + length
  | .changed old length _ _ => old + length

def newStop : Block → Nat
  | .equal _ new length => new + length
  | .changed _ _ new length => new + length

/-- One block for runs of one sort. Deletions say where the change is in the old lines,
insertions where in the new ones. -/
def ofRuns (runs : List Op) : Option Block :=
  let deleted := runs.filter Op.isDelete
  let inserted := runs.filter Op.isInsert
  match runs, deleted, inserted with
  | .equal old new _ :: _, _, _ => some (.equal old new (coveredLines runs))
  | _, .delete old _ _ :: _, .insert _ new _ :: _ =>
      some (.changed old (coveredLines deleted) new (coveredLines inserted))
  | _, .delete old _ new :: _, _ => some (.changed old (coveredLines deleted) new 0)
  | _, _, .insert old new _ :: _ => some (.changed old 0 new (coveredLines inserted))
  | _, _, _ => none

end Block

def blocks (old new : List String) : List Block :=
  let ops := tidy old new (script old new)
  (ops.splitBy fun a b => a.isEqual == b.isEqual).filterMap Block.ofRuns

end Codemod.Diff
