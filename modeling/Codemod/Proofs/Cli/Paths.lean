import Codemod.Disk

/-!
Where paths lead. A directory is found by a path, and a path with one more name leads to what has
this name in the directory, however the path was spelled.
-/

namespace Codemod.Disk

variable {disk : Disk}

def LeadsTo (disk : Disk) (path : String) (place : List String) : Prop :=
  ∃ contents, disk.resolve path = (.file contents, place)

theorem leadsTo_unique {path : String} {place other : List String}
    (leads : disk.LeadsTo path place) (too : disk.LeadsTo path other) : place = other := by
  obtain ⟨contents, led⟩ := leads
  obtain ⟨_, led'⟩ := too
  rw [led] at led'
  exact (Prod.mk.inj led').2

theorem mem_of_contents? {place : List String} {contents : Contents}
    (held : disk.contents? place = some contents) : (place, contents) ∈ disk.files := by
  obtain ⟨front, back, split, _⟩ := List.lookup_eq_some_iff.mp held
  rw [split]
  exact List.mem_append_right front List.mem_cons_self

theorem at?_of_contents? {place : List String} {contents : Contents}
    (held : disk.contents? place = some contents) : disk.at? place = .file contents := by
  rw [at?, held]

theorem contents?_of_at? {place : List String} {contents : Contents}
    (found : disk.at? place = .file contents) : disk.contents? place = some contents := by
  unfold at? at found
  split at found
  · next held =>
      cases found
      exact held
  · split at found <;> cases found

theorem at?_directory {place top : List String} (found : disk.at? place = .directory top) :
    top = place := by
  unfold at? at found
  split at found
  · cases found
  · split at found
    · cases found
      rfl
    · cases found

theorem at?_ne_notADirectory (place : List String) : disk.at? place ≠ .notADirectory := by
  unfold at?
  split
  · nofun
  · split <;> nofun

/-- A path leads on from directories only. -/
theorem follow_snoc (start parts : List String) (part : String) :
    disk.follow start (parts ++ [part]) =
      match disk.follow start parts with
      | (.directory _, place) => disk.follow place [part]
      | (.file _, place) => (.notADirectory, place)
      | (found, place) => (found, place) := by
  induction parts generalizing start with
  | nil =>
      rw [List.nil_append, follow.eq_def disk start []]
      dsimp only
      rw [follow]
      cases found : disk.at? start with
      | directory top => simp only [follow, found]
      | notADirectory => exact absurd found (at?_ne_notADirectory start)
      | file | missing => rfl
  | cons first rest ih =>
      rw [List.cons_append, follow, follow]
      cases disk.at? start with
      | directory top =>
          dsimp only
          split
          · exact ih start
          · split
            · exact ih start.dropLast
            · exact ih (start ++ [first])
      | file | missing | notADirectory => rfl

theorem at?_of_follow {start parts place : List String} {found : Found}
    (led : disk.follow start parts = (found, place)) (there : found ≠ .notADirectory) :
    disk.at? place = found := by
  induction parts generalizing start with
  | nil =>
      cases led
      rfl
  | cons part rest ih =>
      rw [follow] at led
      split at led
      · split at led
        · exact ih led
        · split at led
          · exact ih led
          · exact ih led
      · cases led
        exact absurd rfl there
      · cases led
        rfl

structure IsName (name : String) : Prop where
  nonempty : name ≠ ""
  notHere : name ≠ "."
  notUp : name ≠ ".."
  plain : '/' ∉ name.toList

instance (name : String) : Decidable (IsName name) :=
  decidable_of_iff (name ≠ "" ∧ name ≠ "." ∧ name ≠ ".." ∧ '/' ∉ name.toList)
    ⟨fun ⟨nonempty, notHere, notUp, plain⟩ => ⟨nonempty, notHere, notUp, plain⟩,
      fun ⟨nonempty, notHere, notUp, plain⟩ => ⟨nonempty, notHere, notUp, plain⟩⟩

/-- Files have names and no file is below another one, and what stands in front of absolute paths is
absolute itself or a single name. -/
structure Proper (disk : Disk) : Prop where
  base : '/' ∈ disk.base.toList → "/".toList <+: disk.base.toList
  files : ∀ file ∈ disk.files, ∀ name ∈ file.1, IsName name
  apart : ∀ file ∈ disk.files, ∀ other ∈ disk.files, file.1 <+: other.1 → file.1 = other.1

theorem follow_name {top : List String} {name : String} (called : IsName name)
    (directory : disk.at? top = .directory top) :
    disk.follow top [name] = (disk.at? (top ++ [name]), top ++ [name]) := by
  simp [follow, directory, called.nonempty, called.notHere, called.notUp]

theorem eq_of_follow_empty {start top : List String}
    (led : disk.follow start [""] = (.directory top, top)) : start = top := by
  rw [follow] at led
  split at led
  · exact (Prod.mk.inj led).2
  · cases led
  · exact (Prod.mk.inj led).2

theorem endsWith_iff {text ending : String} :
    text.endsWith ending = true ↔ ending.toList <:+ text.toList := by
  simp [← String.endsWith_toSlice]

theorem join_eq (path name : String) :
    ∃ gap, join path name = path ++ gap ++ name
      ∧ (gap = "/" ∨ gap = "" ∧ ∃ front, path = front ++ "/") := by
  unfold join
  split
  · next slash =>
      obtain ⟨front, ends⟩ := endsWith_iff.mp slash
      refine ⟨"", by simp, Or.inr ⟨rfl, String.ofList front, ?_⟩⟩
      rw [← String.toList_inj, ← ends]
      simp
  · exact ⟨"/", rfl, Or.inl rfl⟩

-- What stands between a path and a name behind it is a slash, unless the path ends with one or
-- nothing is left of it.
def Glued (rest gap : String) : Prop :=
  gap = "/" ∨ gap = "" ∧ (rest = "" ∨ ∃ front, rest = front ++ "/")

/-- What a path with one more name leads to, after what it leads to without. -/
theorem follow_joined {start top : List String} {rest gap name : String} (called : IsName name)
    (led : disk.follow start (Text.parts rest) = (.directory top, top))
    (glued : Glued rest gap) :
    disk.follow start (Text.parts (rest ++ gap ++ name))
      = (disk.at? (top ++ [name]), top ++ [name]) := by
  have directory : disk.at? top = .directory top := at?_of_follow led nofun
  have single : Text.parts name = [name] := Text.parts_plain called.plain
  rcases glued with rfl | ⟨rfl, rfl | ⟨front, rfl⟩⟩
  · rw [Text.parts_append, single, follow_snoc, led]
    exact follow_name called directory
  · -- Nothing is left of the path but the name, which is looked up where the path starts.
    have empty : Text.parts "" = [""] := Text.parts_plain (by decide)
    rw [empty] at led
    rw [eq_of_follow_empty led, String.empty_append, String.empty_append, single]
    exact follow_name called directory
  · have empty : Text.parts "" = [""] := Text.parts_plain (by decide)
    have ended : Text.parts (front ++ "/") = Text.parts front ++ [""] := by
      rw [← String.append_empty (s := front ++ "/"), Text.parts_append, empty]
    rw [ended, follow_snoc] at led
    rw [String.append_empty, Text.parts_append, single, follow_snoc]
    generalize disk.follow start (Text.parts front) = reached at led ⊢
    obtain ⟨found, place⟩ := reached
    cases found with
    | directory =>
        rw [eq_of_follow_empty led]
        exact follow_name called directory
    | file | missing | notADirectory => cases led

-- A path that does not start from the working directory.
def Absolute (disk : Disk) (path : String) : Prop :=
  "/".toList <+: path.toList ∨ disk.base ≠ "" ∧ disk.base.toList <+: path.toList

theorem absolute_iff {path : String} :
    (path.startsWith "/" || (disk.base ≠ "" && path.startsWith disk.base)) = true
      ↔ disk.Absolute path := by
  simp [Absolute, String.startsWith_string_iff]

theorem Absolute.append {path : String} (absolute : disk.Absolute path) (more : String) :
    disk.Absolute (path ++ more) := by
  have longer : path.toList <+: (path ++ more).toList := by
    rw [String.toList_append]
    exact List.prefix_append ..
  exact absolute.imp (·.trans longer) (And.imp_right (·.trans longer))

/-- A text that is not empty starts as what it is the front of. -/
theorem slash_of_append {front more : List Char} (nonempty : front ≠ [])
    (slash : "/".toList <+: front ++ more) : "/".toList <+: front := by
  cases front with
  | nil => exact absurd rfl nonempty
  | cons c rest => simpa using slash

/-- What starts with a slash gives its slash to any text that goes on into it. -/
theorem slash_mem_of_within {rest more : List Char} (nonempty : rest ≠ [])
    (slash : "/".toList <+: more) (within : rest <+: more) : '/' ∈ rest := by
  obtain ⟨behind, rfl⟩ := slash
  cases rest with
  | nil => exact absurd rfl nonempty
  | cons c rest =>
      obtain ⟨same, _⟩ : c = '/' ∧ rest <+: behind := by simpa using within
      simp [same]

/-- A relative path stays relative: the base cannot begin with it and end behind it, since the base
would have a slash in it and no slash in front. -/
theorem Proper.not_absolute_append (proper : disk.Proper) {path more : String}
    (nonempty : path ≠ "") (relative : ¬ disk.Absolute path)
    (slashed : "/".toList <+: more.toList ∨ '/' ∈ path.toList) :
    ¬ disk.Absolute (path ++ more) := by
  have inhabited : path.toList ≠ [] := by simpa using nonempty
  obtain ⟨unslashed, unbased⟩ := not_or.mp relative
  rintro (slash | ⟨named, based⟩)
  · rw [String.toList_append] at slash
    exact unslashed (slash_of_append inhabited slash)
  · rw [String.toList_append] at based
    rcases List.prefix_or_prefix_of_prefix based (List.prefix_append path.toList more.toList) with
      within | ⟨rest, continued⟩
    · exact unbased ⟨named, within⟩
    · have slash : '/' ∈ disk.base.toList := by
        rw [← continued]
        rcases slashed with first | inside
        · rw [← continued, List.prefix_append_right_inj] at based
          have more : rest ≠ [] := by
            rintro rfl
            rw [List.append_nil] at continued
            exact unbased ⟨named, continued ▸ List.prefix_rfl⟩
          exact List.mem_append_right _ (slash_mem_of_within more first based)
        · exact List.mem_append_left rest inside
      have absolute := proper.base slash
      rw [← continued] at absolute
      exact unslashed (slash_of_append inhabited absolute)

/-- An absolute path stays absolute. -/
theorem start?_append_based {path : String} (absolute : disk.Absolute path)
    (based : path.startsWith disk.base = true) (more : String) :
    disk.start? (path ++ more)
      = some ([], Text.parts (String.ofList (path.toList.drop disk.base.length) ++ more)) := by
  have starts : disk.base.toList <+: path.toList := String.startsWith_string_iff.mp based
  have longer : (path ++ more).startsWith disk.base = true := by
    rw [String.startsWith_string_iff, String.toList_append]
    exact starts.trans (List.prefix_append ..)
  have long : disk.base.length ≤ path.toList.length := by
    have within := starts.length_le
    rwa [String.length_toList] at within
  rw [start?, if_pos (absolute_iff.mpr (absolute.append more)), if_pos longer,
    String.toList_append, List.drop_append_of_le_length long, String.ofList_append,
    String.ofList_toList]

theorem start?_append_relative (proper : disk.Proper) {path more : String} (nonempty : path ≠ "")
    (relative : ¬ disk.Absolute path) (slashed : "/".toList <+: more.toList ∨ '/' ∈ path.toList) :
    disk.start? (path ++ more) = some (disk.workingDirectory, Text.parts (path ++ more)) := by
  have still := proper.not_absolute_append nonempty relative slashed
  have longer : path ++ more ≠ "" := fun empty => nonempty (String.append_eq_empty_iff.mp empty).1
  rw [start?, if_neg (mt absolute_iff.mp still), if_neg longer]

/-- Of a path that ends with a slash, the slash is left, or nothing is. -/
theorem drop_slash (front : String) (count : Nat) :
    String.ofList ((front ++ "/").toList.drop count) = ""
      ∨ ∃ rest, String.ofList ((front ++ "/").toList.drop count) = rest ++ "/" := by
  rw [String.toList_append, List.drop_append]
  rcases Nat.lt_or_ge front.toList.length count with long | short
  · refine Or.inl ?_
    rw [List.drop_eq_nil_of_le (Nat.le_of_lt long), List.drop_eq_nil_of_le, List.append_nil,
      String.ofList_nil]
    exact Nat.sub_pos_of_lt long
  · refine Or.inr ⟨String.ofList (front.toList.drop count), ?_⟩
    rw [Nat.sub_eq_zero_of_le short, List.drop_zero, String.ofList_append, String.ofList_toList]

theorem start?_join (proper : disk.Proper) {path : String} {start parts : List String}
    (begun : disk.start? path = some (start, parts)) (name : String) :
    ∃ rest gap, parts = Text.parts rest
      ∧ disk.start? (join path name) = some (start, Text.parts (rest ++ gap ++ name))
      ∧ Glued rest gap := by
  obtain ⟨gap, joined, glued⟩ := join_eq path name
  rw [joined, String.append_assoc]
  unfold start? at begun
  split at begun
  · next absolute =>
      split at begun
      · next based =>
          cases begun
          refine ⟨_, gap, rfl, ?_, glued.imp_right fun ⟨bare, front, ends⟩ => ⟨bare, ?_⟩⟩
          · rw [start?_append_based (absolute_iff.mp absolute) based, String.append_assoc]
          · rw [ends]
            exact drop_slash front disk.base.length
      · cases begun
  · next relative =>
      split at begun
      · cases begun
      · next nonempty =>
          cases begun
          refine ⟨path, gap, rfl, ?_, glued.imp_right fun ⟨bare, ends⟩ => ⟨bare, Or.inr ends⟩⟩
          rw [start?_append_relative proper nonempty (mt absolute_iff.mpr relative),
            String.append_assoc]
          rcases glued with rfl | ⟨rfl, front, rfl⟩
          · exact Or.inl (by simp)
          · exact Or.inr (by simp)

/-- A path to a directory with one more name leads to what has this name there. -/
theorem resolve_join (proper : disk.Proper) {path name : String} {top : List String}
    (called : IsName name) (led : disk.resolve path = (.directory top, top)) :
    disk.resolve (join path name) = (disk.at? (top ++ [name]), top ++ [name]) := by
  unfold resolve at led ⊢
  cases begun : disk.start? path with
  | none =>
      rw [begun] at led
      cases led
  | some begin =>
      obtain ⟨start, parts⟩ := begin
      obtain ⟨rest, gap, rfl, joined, glued⟩ := start?_join proper begun name
      rw [begun] at led
      rw [joined]
      exact follow_joined called led glued

theorem at?_of_resolve {path : String} {found : Found} {place : List String}
    (led : disk.resolve path = (found, place)) (there : found ≠ .missing)
    (through : found ≠ .notADirectory) : disk.at? place = found := by
  unfold resolve at led
  split at led
  · exact at?_of_follow led through
  · cases led
    exact absurd rfl there

theorem contents?_of_resolve {path : String} {contents : Contents} {place : List String}
    (led : disk.resolve path = (.file contents, place)) : disk.contents? place = some contents :=
  contents?_of_at? (at?_of_resolve led nofun nofun)

theorem resolve_directory {path : String} {top : List String}
    (found : disk.find path = .directory top) : disk.resolve path = (.directory top, top) := by
  have led : disk.resolve path = (.directory top, (disk.resolve path).2) := Prod.ext found rfl
  have there := at?_directory (at?_of_resolve led nofun nofun)
  rwa [← there] at led

end Codemod.Disk
