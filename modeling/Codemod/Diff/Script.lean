import Codemod.Diff.Line

/-!
A shortest way from one list of lines to another. What both have in common at their ends is kept;
between the ends two searches, one from each side, meet in the middle, and both halves are treated
in the same way.
-/

namespace Codemod.Diff

/-- A run of lines that is kept, deleted or inserted, with the indices of its first line on both
sides. -/
inductive Op where
  | equal (old new length : Nat)
  | delete (old length new : Nat)
  | insert (old new length : Nat)
deriving DecidableEq, Repr

def agreement (a b : Array String) : Nat → Nat → Nat → Nat
  | 0, _, _ => 0
  | left + 1, x, y =>
      match a[x]?, b[y]? with
      | some first, some second =>
          if first = second then agreement a b left (x + 1) (y + 1) + 1 else 0
      | _, _ => 0

def commonLength : List String → List String → Nat
  | a :: as, b :: bs => if a = b then commonLength as bs + 1 else 0
  | _, _ => 0

/-- How far a search has come on each diagonal. Diagonals count from minus `offset`. -/
structure Reach where
  offset : Nat
  furthest : Array Nat

namespace Reach

def empty (offset : Nat) : Reach :=
  ⟨offset, Array.replicate (2 * offset + 1) 0⟩

def get (reach : Reach) (diagonal : Int) : Nat :=
  reach.furthest.getD (diagonal + reach.offset).toNat 0

def set (reach : Reach) (diagonal : Int) (x : Nat) : Reach :=
  { reach with furthest := reach.furthest.setIfInBounds (diagonal + reach.offset).toNat x }

-- Where a search enters a diagonal after `d` changes: from the neighbour that came further.
def enter (reach : Reach) (d diagonal : Int) : Nat :=
  if diagonal = -d ∨ (diagonal ≠ d ∧ reach.get (diagonal - 1) < reach.get (diagonal + 1)) then
    reach.get (diagonal + 1)
  else reach.get (diagonal - 1) + 1

end Reach

structure Sides where
  old : Array String
  new : Array String
  oldBack : Array String
  newBack : Array String

namespace Sides

def ofLists (old new : List String) : Sides :=
  ⟨old.toArray, new.toArray, old.reverse.toArray, new.reverse.toArray⟩

def delta (sides : Sides) : Int :=
  (sides.old.size : Int) - sides.new.size

def met (sides : Sides) (here there : Reach) (diagonal : Int) : Bool :=
  decide (sides.old.size ≤ here.get diagonal + there.get (sides.delta - diagonal))

def forward (sides : Sides) (d : Int) (back : Reach) :
    List Int → Reach → Reach × Option (Nat × Nat)
  | [], reach => (reach, none)
  | diagonal :: rest, reach =>
      let x := reach.enter d diagonal
      let y := (x : Int) - diagonal
      let run := if y < 0 then 0
        else agreement sides.old sides.new sides.old.size x y.toNat
      let reach := reach.set diagonal (x + run)
      let facing := sides.delta % 2 = 1 ∧ (diagonal - sides.delta).natAbs ≤ d - 1
      if facing ∧ sides.met reach back diagonal then (reach, some (x, y.toNat))
      else sides.forward d back rest reach

def backward (sides : Sides) (d : Int) (front : Reach) :
    List Int → Reach → Reach × Option (Nat × Nat)
  | [], reach => (reach, none)
  | diagonal :: rest, reach =>
      let x := reach.enter d diagonal
      let y := (x : Int) - diagonal
      let run := if y < 0 then 0
        else agreement sides.oldBack sides.newBack sides.old.size x y.toNat
      let reach := reach.set diagonal (x + run)
      let facing := sides.delta % 2 = 0 ∧ (diagonal - sides.delta).natAbs ≤ d
      if facing ∧ sides.met reach front diagonal then
        (reach, some (sides.old.size - (x + run), sides.new.size - (y.toNat + run)))
      else sides.backward d front rest reach

def diagonals (d : Nat) : List Int :=
  (List.range (d + 1)).map fun (i : Nat) => (d : Int) - 2 * i

def meet (sides : Sides) : Nat → Nat → Reach → Reach → Option (Nat × Nat)
  | 0, _, _, _ => none
  | left + 1, d, front, back =>
      match sides.forward d back (diagonals d) front with
      | (_, some point) => some point
      | (front, none) =>
          match sides.backward d front (diagonals d) back with
          | (_, some point) => some point
          | (back, none) => sides.meet left (d + 1) front back

def middle? (sides : Sides) : Option (Nat × Nat) :=
  let steps := (sides.old.size + sides.new.size + 1) / 2 + 1
  sides.meet steps 0 (Reach.empty steps) (Reach.empty steps)

end Sides

def kept (old new length : Nat) : List Op :=
  if length = 0 then [] else [.equal old new length]

-- The way from one list to another, whose first lines have the given indices.
def scriptFrom : Nat → List String → List String → Nat → Nat → List Op
  | 0, old, new, i, j => [.delete i old.length j, .insert i j new.length]
  | depth + 1, old, new, i, j =>
      let start := commonLength old new
      let old := old.drop start
      let new := new.drop start
      let stop := commonLength old.reverse new.reverse
      let old := old.take (old.length - stop)
      let new := new.take (new.length - stop)
      let i' := i + start
      let j' := j + start
      let between := match old, new with
        | [], [] => []
        | _, [] => [.delete i' old.length j']
        | [], _ => [.insert i' j' new.length]
        | _, _ =>
            match (Sides.ofLists old new).middle? with
            | some (x, y) =>
                scriptFrom depth (old.take x) (new.take y) i' j'
                  ++ scriptFrom depth (old.drop x) (new.drop y) (i' + x) (j' + y)
            | none => [.delete i' old.length j', .insert i' j' new.length]
      kept i j start ++ between ++ kept (i' + old.length) (j' + new.length) stop

def script (old new : List String) : List Op :=
  scriptFrom (old.length + new.length + 1) old new 0 0

end Codemod.Diff
