import Codemod.Proofs.Cli.Paths

/-!
What writing does to a disk. Only files that are there are written, so no path comes to lead
elsewhere, and a file has changed only if it now holds a text that was written to a path of it.
-/

namespace Codemod

inductive Found.Alike : Found → Found → Prop
  | file (former later : Contents) : Alike (.file former) (.file later)
  | same (found : Found) : Alike found found

namespace Disk

variable {disk before after : Disk}

def put (disk : Disk) (place : List String) (text : String) : Disk :=
  { disk with
    files := disk.files.map fun file => if file.1 = place then (place, .text text) else file }

-- The disk after a text was written to a path. Writing that is refused, or that finds no file,
-- changes nothing.
def write (disk : Disk) (entry : String × String) : Disk :=
  match disk.resolve entry.1, disk.refusals.lookup entry.1 with
  | (.file _, place), none => disk.put place entry.2
  | _, _ => disk

def writeAll (disk : Disk) (entries : List (String × String)) : Disk :=
  entries.foldl write disk

/-- The same files and directories, with other contents perhaps. -/
structure SameShape (before after : Disk) : Prop where
  base : after.base = before.base
  working : after.workingDirectory = before.workingDirectory
  directories : after.directories = before.directories
  refusals : after.refusals = before.refusals
  places : after.files.map Prod.fst = before.files.map Prod.fst

theorem sameShape_refl (disk : Disk) : SameShape disk disk :=
  ⟨rfl, rfl, rfl, rfl, rfl⟩

theorem SameShape.symm (shape : SameShape before after) : SameShape after before where
  base := shape.base.symm
  working := shape.working.symm
  directories := shape.directories.symm
  refusals := shape.refusals.symm
  places := shape.places.symm

theorem sameShape_put (disk : Disk) (place : List String) (text : String) :
    SameShape disk (disk.put place text) := by
  refine ⟨rfl, rfl, rfl, rfl, ?_⟩
  rw [put, List.map_map]
  refine List.map_congr_left fun file _ => ?_
  by_cases here : file.1 = place <;> simp [here]

theorem sameShape_write (disk : Disk) (entry : String × String) :
    SameShape disk (disk.write entry) := by
  unfold write
  split
  · exact sameShape_put ..
  · exact sameShape_refl disk

theorem contents?_isSome (disk : Disk) (place : List String) :
    (disk.contents? place).isSome = (disk.files.map Prod.fst).contains place := by
  unfold contents?
  induction disk.files with
  | nil => rfl
  | cons file rest ih =>
      rw [List.lookup_cons, List.map_cons, List.contains_cons]
      cases place == file.1 with
      | true => rfl
      | false => exact ih

theorem SameShape.isDirectory (shape : SameShape before after) (place : List String) :
    after.isDirectory place = before.isDirectory place := by
  have any (disk : Disk) : (disk.files.any fun file =>
      place.length < file.1.length && place.isPrefixOf file.1)
        = (disk.files.map Prod.fst).any fun other =>
            place.length < other.length && place.isPrefixOf other := by
    rw [List.any_map]
    rfl
  rw [Disk.isDirectory, Disk.isDirectory, any, any, shape.places, shape.directories]

theorem SameShape.at? (shape : SameShape before after) (place : List String) :
    (before.at? place).Alike (after.at? place) := by
  have same : (after.contents? place).isSome = (before.contents? place).isSome := by
    rw [contents?_isSome, contents?_isSome, shape.places]
  unfold Disk.at?
  cases former : before.contents? place with
  | some contents =>
      rw [former] at same
      obtain ⟨other, later⟩ := Option.isSome_iff_exists.mp same
      rw [later]
      exact .file ..
  | none =>
      rw [former, Option.isSome_none, Option.isSome_eq_false_iff, Option.isNone_iff_eq_none] at same
      rw [same, shape.isDirectory]
      exact .same _

theorem SameShape.follow (shape : SameShape before after) (start parts : List String) :
    (before.follow start parts).1.Alike (after.follow start parts).1
      ∧ (before.follow start parts).2 = (after.follow start parts).2 := by
  induction parts generalizing start with
  | nil => exact ⟨shape.at? start, rfl⟩
  | cons part rest ih =>
      have here := shape.at? start
      rw [Disk.follow, Disk.follow]
      generalize before.at? start = former at here ⊢
      generalize after.at? start = later at here ⊢
      cases here with
      | file => exact ⟨.same _, rfl⟩
      | same =>
          cases former with
          | directory =>
              dsimp only
              split
              · exact ih start
              · split
                · exact ih start.dropLast
                · exact ih (start ++ [part])
          | file | missing | notADirectory => exact ⟨.same _, rfl⟩

theorem SameShape.leadsTo (shape : SameShape before after) {path : String} {place : List String}
    (led : after.LeadsTo path place) : before.LeadsTo path place := by
  obtain ⟨contents, led⟩ := led
  obtain ⟨alike, same⟩ : (before.resolve path).1.Alike (after.resolve path).1
      ∧ (before.resolve path).2 = (after.resolve path).2 := by
    rw [resolve, resolve, start?, start?, shape.base, shape.working]
    split
    · exact shape.follow _ _
    · exact ⟨.same _, rfl⟩
  rw [led] at alike same
  cases found : (before.resolve path).1 with
  | file former => exact ⟨former, Prod.ext found same⟩
  | directory | missing | notADirectory =>
      rw [found] at alike
      cases alike

theorem contents?_put (disk : Disk) (here place : List String) (text : String) :
    (disk.put here text).contents? place
      = if place = here then (disk.contents? place).map fun _ => .text text
        else disk.contents? place := by
  unfold contents? put
  induction disk.files with
  | nil => simp
  | cons file rest ih =>
      rw [List.map_cons, List.lookup_cons, List.lookup_cons, ih]
      by_cases held : place = file.1
      · by_cases asked : file.1 = here <;> simp [held, asked]
      · have apart : (place == file.1) = false := beq_eq_false_iff_ne.mpr held
        by_cases asked : file.1 = here
        · rw [asked] at apart
          simp [asked, apart]
        · simp [asked, apart]

/-- A text that can be written to a path is held where the path leads. -/
theorem contents?_write_of_leadsTo {entry : String × String} {place : List String}
    (leads : disk.LeadsTo entry.1 place) (free : disk.refusals.lookup entry.1 = none) :
    (disk.write entry).contents? place = some (.text entry.2) := by
  obtain ⟨contents, led⟩ := leads
  rw [write, led, free]
  dsimp only
  rw [contents?_put, if_pos rfl, contents?_of_resolve led]
  rfl

theorem contents?_write (disk : Disk) (entry : String × String) (place : List String) :
    (disk.write entry).contents? place = disk.contents? place
      ∨ disk.LeadsTo entry.1 place ∧ disk.refusals.lookup entry.1 = none
        ∧ (disk.write entry).contents? place = some (.text entry.2) := by
  by_cases leads : disk.LeadsTo entry.1 place ∧ disk.refusals.lookup entry.1 = none
  · exact Or.inr ⟨leads.1, leads.2, contents?_write_of_leadsTo leads.1 leads.2⟩
  · refine Or.inl ?_
    unfold write
    split
    · next contents there led free =>
        have other : place ≠ there := by
          rintro rfl
          exact leads ⟨⟨contents, led⟩, free⟩
        rw [contents?_put, if_neg other]
    · rfl

/-- A place holds what it held, or a text that was written to a path of it. -/
theorem contents?_writeAll (disk : Disk) (entries : List (String × String)) (place : List String) :
    (disk.writeAll entries).contents? place = disk.contents? place
      ∨ ∃ entry ∈ entries, disk.LeadsTo entry.1 place ∧ disk.refusals.lookup entry.1 = none
        ∧ (disk.writeAll entries).contents? place = some (.text entry.2) := by
  -- The texts behind the first are written to the disk it leaves, where paths lead as before.
  induction entries generalizing disk with
  | nil => exact Or.inl rfl
  | cons first rest ih =>
      have shape := sameShape_write disk first
      rw [writeAll, List.foldl_cons]
      rcases ih (disk.write first) with kept | ⟨entry, later, leads, free, held⟩
      · rcases contents?_write disk first place with before | ⟨leads, free, held⟩
        · exact Or.inl (kept.trans before)
        · exact Or.inr ⟨first, List.mem_cons_self, leads, free, kept.trans held⟩
      · rw [shape.refusals] at free
        exact Or.inr ⟨entry, List.mem_cons_of_mem first later, shape.leadsTo leads, free, held⟩

/-- A place that texts were written to holds one of them. -/
theorem contents?_writeAll_of_leadsTo {entries : List (String × String)} {place : List String}
    {entry : String × String} (listed : entry ∈ entries) (leads : disk.LeadsTo entry.1 place)
    (free : disk.refusals.lookup entry.1 = none) :
    ∃ last ∈ entries, disk.LeadsTo last.1 place
      ∧ (disk.writeAll entries).contents? place = some (.text last.2) := by
  induction entries generalizing disk with
  | nil => cases listed
  | cons first rest ih =>
      have shape := sameShape_write disk first
      rw [writeAll, List.foldl_cons]
      rcases List.mem_cons.mp listed with rfl | later
      · rcases contents?_writeAll (disk.write entry) rest place with
          kept | ⟨last, after, reached, -, held⟩
        · exact ⟨entry, List.mem_cons_self, leads,
            kept.trans (contents?_write_of_leadsTo leads free)⟩
        · exact ⟨last, List.mem_cons_of_mem entry after, shape.leadsTo reached, held⟩
      · -- The entry is still to be written, and its path leads to the place on the disk by then.
        obtain ⟨last, after, reached, held⟩ :=
          ih later (shape.symm.leadsTo leads) (by rwa [shape.refusals])
        exact ⟨last, List.mem_cons_of_mem first after, shape.leadsTo reached, held⟩

end Disk

end Codemod
