import Codemod.Proofs.Diff.Patch

/-!
Hunks of a difference. Blocks that stand one behind the other and account for both texts are cut where
many lines are kept; kept lines further from a change than the context are left out. Main statement:
the hunks lead from the old lines to the new ones (`leads_of_tiles`).
-/

namespace Codemod.Diff

def hunk? (old new : List String) (blocks : List Block) : Option Hunk :=
  match blocks, blocks.getLast? with
  | first :: _, some last =>
      some ⟨⟨first.oldStart, last.oldStop - first.oldStart⟩,
        ⟨first.newStart, last.newStop - first.newStart⟩, blocks.flatMap (marked old new)⟩
  | _, _ => none

def foundHunks (old new : List String) : List Hunk :=
  (hunks (blocks old new)).filterMap (hunk? old new)

abbrev Place := Nat × Nat

def Block.start (block : Block) : Place :=
  (block.oldStart, block.newStart)

def Block.stop (block : Block) : Place :=
  (block.oldStop, block.newStop)

/-- What lies between two places: these lines of the old text and those of the new one. -/
structure Stretch (old new : List String) (here there : Place) (was becomes : List String) : Prop where
  oldLines : old.drop here.1 = was ++ old.drop there.1
  oldCount : there.1 = here.1 + was.length
  newLines : new.drop here.2 = becomes ++ new.drop there.2
  newCount : there.2 = here.2 + becomes.length

variable {old new : List String} {here there far : Place} {was becomes : List String}
  {block : Block} {blocks : List Block}

theorem Stretch.refl : Stretch old new here here [] [] :=
  ⟨rfl, rfl, rfl, rfl⟩

theorem Stretch.append {was' becomes' : List String} (near : Stretch old new here there was becomes)
    (further : Stretch old new there far was' becomes') :
    Stretch old new here far (was ++ was') (becomes ++ becomes') where
  oldLines := by rw [near.oldLines, further.oldLines, List.append_assoc]
  oldCount := by rw [further.oldCount, near.oldCount, List.length_append, Nat.add_assoc]
  newLines := by rw [near.newLines, further.newLines, List.append_assoc]
  newCount := by rw [further.newCount, near.newCount, List.length_append, Nat.add_assoc]

def Agree (old new : List String) (here there : Place) : Prop :=
  ∃ lines, Stretch old new here there lines lines

theorem Agree.refl : Agree old new here here :=
  ⟨[], .refl⟩

theorem Agree.trans (near : Agree old new here there) (further : Agree old new there far) :
    Agree old new here far := by
  obtain ⟨lines, near⟩ := near
  obtain ⟨more, further⟩ := further
  exact ⟨lines ++ more, near.append further⟩

/-- What leads on from a place leads there behind a hunk, too. -/
theorem Leads.behind {entries : List (Mark × String)} {hunks : List Hunk}
    (gap : Agree old new here there)
    (stretch : Stretch old new there far (oldSide entries) (newSide entries))
    (later : Leads far.1 far.2 (old.drop far.1) (new.drop far.2) hunks) :
    Leads here.1 here.2 (old.drop here.1) (new.drop here.2)
      (⟨⟨there.1, far.1 - there.1⟩, ⟨there.2, far.2 - there.2⟩, entries⟩ :: hunks) := by
  obtain ⟨lines, gap⟩ := gap
  rw [stretch.oldCount, stretch.newCount, gap.oldCount, gap.newCount] at later
  have leads := Leads.hunk lines entries later
  rw [stretch.oldCount, stretch.newCount, Nat.add_sub_cancel_left, Nat.add_sub_cancel_left,
    gap.oldLines, gap.newLines, stretch.oldLines, stretch.newLines, gap.oldCount, gap.newCount]
  simpa [stretch.oldCount, stretch.newCount, gap.oldCount, gap.newCount] using leads

def Fits (old new : List String) : Block → Prop
  | .equal start index length => start + length ≤ old.length ∧ index + length ≤ new.length
      ∧ range old start length = range new index length
  | .changed start length index count => start + length ≤ old.length ∧ index + count ≤ new.length

def Tiles (old new : List String) : Place → List Block → Place → Prop
  | here, [], there => here = there
  | here, block :: rest, there =>
      block.start = here ∧ Fits old new block ∧ Tiles old new block.stop rest there

instance : (block : Block) → Decidable (Fits old new block)
  | .equal .. => inferInstanceAs (Decidable (_ ∧ _ ∧ _))
  | .changed .. => inferInstanceAs (Decidable (_ ∧ _))

instance Tiles.decidable (here there : Place) :
    (blocks : List Block) → Decidable (Tiles old new here blocks there)
  | [] => inferInstanceAs (Decidable (here = there))
  | block :: rest =>
      have := Tiles.decidable block.stop there rest
      inferInstanceAs (Decidable (block.start = here ∧ Fits old new block ∧ _))

theorem length_range {lines : List String} {start length : Nat}
    (inside : start + length ≤ lines.length) :
    (range lines start length).length = length := by
  rw [range, List.length_take, List.length_drop]
  omega

theorem drop_range (lines : List String) (start length : Nat) :
    lines.drop start = range lines start length ++ lines.drop (start + length) := by
  rw [range, ← List.drop_drop, List.take_append_drop]

@[simp] theorem oldSide_append (entries more : List (Mark × String)) :
    oldSide (entries ++ more) = oldSide entries ++ oldSide more := by
  simp [oldSide]

@[simp] theorem newSide_append (entries more : List (Mark × String)) :
    newSide (entries ++ more) = newSide entries ++ newSide more := by
  simp [newSide]

theorem oldSide_map (mark : Mark) (lines : List String) :
    oldSide (lines.map fun line => (mark, line)) = if mark = .inserted then [] else lines := by
  cases mark <;> simp [oldSide, List.filter_map, Function.comp_def, bne, BEq.beq]

theorem newSide_map (mark : Mark) (lines : List String) :
    newSide (lines.map fun line => (mark, line)) = if mark = .deleted then [] else lines := by
  cases mark <;> simp [newSide, List.filter_map, Function.comp_def, bne, BEq.beq]

theorem stretch_ranges {start length index count : Nat} (oldInside : start + length ≤ old.length)
    (newInside : index + count ≤ new.length) :
    Stretch old new (start, index) (start + length, index + count) (range old start length)
      (range new index count) where
  oldLines := drop_range ..
  oldCount := by rw [length_range oldInside]
  newLines := drop_range ..
  newCount := by rw [length_range newInside]

/-- A block accounts for what lies between its start and its end. -/
theorem Fits.stretch (fits : Fits old new block) :
    Stretch old new block.start block.stop (oldSide (marked old new block))
      (newSide (marked old new block)) := by
  cases block with
  | equal start index length =>
      obtain ⟨oldInside, newInside, same⟩ := fits
      have between := stretch_ranges oldInside newInside
      rw [← same] at between
      simp only [marked, oldSide_map, newSide_map, reduceCtorEq, if_false]
      exact between
  | changed start length index count =>
      simp only [marked, oldSide_append, newSide_append, oldSide_map, newSide_map, reduceCtorEq,
        if_false, if_true, List.append_nil, List.nil_append]
      exact stretch_ranges fits.1 fits.2

theorem Tiles.stretch (tiles : Tiles old new here blocks there) :
    Stretch old new here there (oldSide (blocks.flatMap (marked old new)))
      (newSide (blocks.flatMap (marked old new))) := by
  induction blocks generalizing here with
  | nil =>
      cases tiles
      exact .refl
  | cons block rest ih =>
      obtain ⟨rfl, fits, later⟩ := tiles
      rw [List.flatMap_cons, oldSide_append, newSide_append]
      exact fits.stretch.append (ih later)

theorem tiles_append {front back : List Block} : Tiles old new here (front ++ back) there
    ↔ ∃ between, Tiles old new here front between ∧ Tiles old new between back there := by
  induction front generalizing here with
  | nil => simp [Tiles]
  | cons block front ih => simp [Tiles, ih, and_assoc]

theorem agree_of_fits {start index length : Nat} (fits : Fits old new (.equal start index length)) :
    Agree old new (start, index) (start + length, index + length) := by
  have between := stretch_ranges fits.1 fits.2.1
  rw [← fits.2.2] at between
  exact ⟨_, between⟩

theorem range_add (lines : List String) (start length more : Nat) :
    range lines start (length + more)
      = range lines start length ++ range lines (start + length) more := by
  rw [range, range, range, List.take_add, List.drop_drop]

/-- Both parts of a kept run are kept runs. -/
theorem Fits.cut {start index length more : Nat}
    (fits : Fits old new (.equal start index (length + more))) :
    Fits old new (.equal start index length)
      ∧ Fits old new (.equal (start + length) (index + length) more) := by
  obtain ⟨oldInside, newInside, same⟩ := fits
  rw [range_add, range_add] at same
  have sizes : (range old start length).length = (range new index length).length := by
    rw [length_range (by omega), length_range (by omega)]
  obtain ⟨first, second⟩ := List.append_inj same sizes
  exact ⟨⟨by omega, by omega, first⟩, by omega, by omega, second⟩

theorem lastLines_stop (block : Block) : (lastLines block).stop = block.stop := by
  cases block with
  | changed => rfl
  | equal start index length =>
      simp only [lastLines, Block.stop, Block.oldStop, Block.newStop, Prod.mk.injEq]
      omega

theorem firstLines_start (block : Block) : (firstLines block).start = block.start := by
  cases block <;> rfl

/-- What is left out before the last lines of a block is the same in both texts. -/
theorem Fits.lastLines (fits : Fits old new block) :
    Fits old new (lastLines block) ∧ Agree old new block.start (Diff.lastLines block).start := by
  cases block with
  | changed => exact ⟨fits, .refl⟩
  | equal start index length =>
      have split : length - context + min length context = length := by omega
      rw [← split] at fits
      obtain ⟨before, kept⟩ := fits.cut
      exact ⟨kept, agree_of_fits before⟩

/-- What is left out behind the first lines of a block is the same in both texts. -/
theorem Fits.firstLines (fits : Fits old new block) :
    Fits old new (firstLines block) ∧ Agree old new (Diff.firstLines block).stop block.stop := by
  cases block with
  | changed => exact ⟨fits, .refl⟩
  | equal start index length =>
      obtain ⟨more, split⟩ := Nat.le.dest (Nat.min_le_left length context)
      rw [← split] at fits
      obtain ⟨kept, behind⟩ := fits.cut
      have agree := agree_of_fits behind
      rw [Nat.add_assoc, Nat.add_assoc, split] at agree
      exact ⟨kept, agree⟩

/-- What is left out in a long kept run is the same in both texts. -/
theorem Fits.middle {start index length : Nat} (fits : Fits old new (.equal start index length))
    (long : 2 * context < length) :
    Agree old new (Diff.firstLines (.equal start index length)).stop
      (Diff.lastLines (.equal start index length)).start := by
  obtain ⟨more, rfl⟩ := Nat.le.dest (Nat.le_of_lt long)
  have split : 2 * context + more = context + (more + context) := by omega
  rw [split] at fits
  have agree := agree_of_fits fits.cut.2.cut.1
  have short : min (2 * context + more) context = context := by omega
  have left : 2 * context + more - context = context + more := by omega
  simp only [Diff.firstLines, Diff.lastLines, Block.start, Block.stop, Block.oldStart,
    Block.newStart, Block.oldStop, Block.newStop, short, left]
  rw [← Nat.add_assoc, ← Nat.add_assoc]
  exact agree

theorem Tiles.head {first : Block} {rest : List Block}
    (tiles : Tiles old new here (first :: rest) there) : ∃ nearer, Agree old new here nearer
      ∧ Tiles old new nearer (lastLines first :: rest) there := by
  obtain ⟨rfl, fits, later⟩ := tiles
  obtain ⟨kept, agree⟩ := fits.lastLines
  rw [← lastLines_stop] at later
  exact ⟨_, agree, rfl, kept, later⟩

theorem Tiles.last {front : List Block} {last : Block}
    (tiles : Tiles old new here (front ++ [last]) there) : ∃ nearer, Agree old new nearer there
      ∧ Tiles old new here (front ++ [firstLines last]) nearer := by
  obtain ⟨between, before, rfl, fits, rfl⟩ := tiles_append.mp tiles
  obtain ⟨kept, agree⟩ := fits.firstLines
  exact ⟨_, agree, tiles_append.mpr ⟨_, before, firstLines_start last, kept, rfl⟩⟩

theorem Tiles.trimEnds (tiles : Tiles old new here blocks there) :
    ∃ first last, Agree old new here first ∧ Tiles old new first (trimEnds blocks) last
      ∧ Agree old new last there := by
  cases blocks with
  | nil =>
      cases tiles
      exact ⟨_, _, .refl, rfl, .refl⟩
  | cons block rest =>
      obtain ⟨first, left, tiles⟩ := tiles.head
      have ends := List.getLast?_eq_some_getLast (List.cons_ne_nil (lastLines block) rest)
      rw [← List.dropLast_concat_getLast (List.cons_ne_nil (lastLines block) rest)] at tiles
      obtain ⟨last, right, tiles⟩ := tiles.last
      simp only [Diff.trimEnds, ends]
      exact ⟨first, last, left, tiles, right⟩

theorem Tiles.hunk? (tiles : Tiles old new here blocks there) (nonempty : blocks ≠ []) :
    hunk? old new blocks = some ⟨⟨here.1, there.1 - here.1⟩, ⟨here.2, there.2 - here.2⟩,
      blocks.flatMap (marked old new)⟩ := by
  have ends := List.getLast?_eq_some_getLast nonempty
  have stop : (blocks.getLast nonempty).stop = there := by
    rw [← List.dropLast_concat_getLast nonempty] at tiles
    obtain ⟨_, -, -, -, stop⟩ := tiles_append.mp tiles
    exact stop
  cases blocks with
  | nil => exact absurd rfl nonempty
  | cons first rest =>
      obtain ⟨rfl, -, -⟩ := tiles
      cases stop
      simp only [Diff.hunk?, ends]
      rfl

theorem leads_of_agree (gap : Agree old new here there)
    (tail : old.drop there.1 = new.drop there.2) :
    Leads here.1 here.2 (old.drop here.1) (new.drop here.2) [] := by
  obtain ⟨lines, gap⟩ := gap
  rw [gap.oldLines, gap.newLines, tail]
  exact .same _

/-- The hunks that come of the blocks on the way, latest first, and of those that follow. -/
theorem leads_cutHunks (pending : List Block) {rest : List Block} {first between last : Place}
    (gap : Agree old new here first) (before : Tiles old new first pending.reverse between)
    (after : Tiles old new between rest last) (tail : old.drop last.1 = new.drop last.2) :
    Leads here.1 here.2 (old.drop here.1) (new.drop here.2)
      ((cutHunks pending rest).filterMap (hunk? old new)) := by
  induction rest generalizing pending here first between with
  | nil =>
      cases after
      unfold cutHunks
      split
      · cases before
        exact leads_of_agree gap tail
      · obtain ⟨rfl, fits, rfl⟩ := before
        exact leads_of_agree (gap.trans (agree_of_fits fits)) tail
      · next found _ =>
        have nonempty : pending.reverse ≠ [] := by simpa using found
        rw [List.filterMap_cons_some (before.hunk? nonempty)]
        exact .behind gap before.stretch (leads_of_agree .refl tail)
  | cons block rest ih =>
      obtain ⟨rfl, fits, later⟩ := after
      have longer : Tiles old new first (block :: pending).reverse block.stop := by
        rw [List.reverse_cons]
        exact tiles_append.mpr ⟨_, before, rfl, fits, rfl⟩
      cases block with
      | changed => exact ih _ gap longer later
      | equal start index length =>
          rw [cutHunks]
          split
          case isFalse => exact ih _ gap longer later
          case isTrue long =>
            -- The first lines of a long stretch close the hunk, and its last lines open the next.
            obtain ⟨kept, -⟩ := fits.firstLines
            have hunk : Tiles old new first
                (firstLines (.equal start index length) :: pending).reverse
                (firstLines (.equal start index length)).stop := by
              rw [List.reverse_cons]
              exact tiles_append.mpr ⟨_, before, firstLines_start _, kept, rfl⟩
            obtain ⟨onward, -⟩ := fits.lastLines
            rw [List.filterMap_cons_some (hunk.hunk? (by simp))]
            refine .behind gap hunk.stretch (ih _ (fits.middle long) ?_ later)
            exact ⟨rfl, onward, lastLines_stop _⟩

/-- Blocks that account for both texts are cut into hunks that lead from the one to the other. -/
theorem leads_of_tiles (tiles : Tiles old new (0, 0) blocks (old.length, new.length)) :
    Leads 0 0 old new ((hunks blocks).filterMap (hunk? old new)) := by
  obtain ⟨first, last, left, tiles, right⟩ := tiles.trimEnds
  have tail : old.drop last.1 = new.drop last.2 := by
    obtain ⟨lines, right⟩ := right
    rw [right.oldLines, right.newLines, List.drop_length, List.drop_length]
  exact leads_cutHunks [] left rfl tiles tail

end Codemod.Diff
