import Codemod.Cli
import Codemod.Proofs.Cli.Paths
import Codemod.Proofs.Step

/-!
Which files are taken. Walking finds the files below a directory under the paths that lead to them.
Those are taken that have the name of a source file and are not excluded; a file that is named is
taken whatever its name.
-/

namespace Codemod

namespace Disk

variable {disk : Disk}

/-- What is above a file is a directory. -/
theorem at?_above (proper : disk.Proper) {top rest : List String} {name : String}
    {contents : Contents} (held : disk.contents? (top ++ name :: rest) = some contents) :
    disk.at? top = .directory top := by
  have filed := mem_of_contents? held
  unfold at?
  cases above : disk.contents? top with
  | some other =>
      have same : top = top ++ name :: rest :=
        proper.apart _ (mem_of_contents? above) _ filed (List.prefix_append ..)
      simp at same
  | none =>
      have directory : disk.isDirectory top = true := by
        have found : disk.files.any (fun file =>
            top.length < file.1.length && top.isPrefixOf file.1) = true :=
          List.any_eq_true.mpr ⟨_, filed, by simp⟩
        rw [isDirectory, found, Bool.or_true]
      simp [directory]

theorem mem_names {top rest : List String} {name : String} {contents : Contents}
    (held : disk.contents? (top ++ name :: rest) = some contents) : name ∈ disk.names top := by
  have filed : top ++ name :: rest ∈ disk.files.map Prod.fst ++ disk.directories :=
    List.mem_append_left _ (List.mem_map.mpr ⟨_, mem_of_contents? held, rfl⟩)
  rw [names, List.mem_mergeSort, List.mem_eraseDups]
  exact List.mem_filterMap.mpr ⟨_, filed, by simp⟩

theorem le_foldl_max (lengths : List Nat) (start : Nat) :
    start ≤ lengths.foldl max start ∧ ∀ length ∈ lengths, length ≤ lengths.foldl max start := by
  induction lengths generalizing start with
  | nil => simp
  | cons first rest ih =>
      obtain ⟨grown, covered⟩ := ih (max start first)
      rw [List.foldl_cons]
      refine ⟨Nat.le_trans (Nat.le_max_left ..) grown, fun length listed => ?_⟩
      rcases List.mem_cons.mp listed with rfl | later
      · exact Nat.le_trans (Nat.le_max_right ..) grown
      · exact covered length later

theorem length_lt_depth {place : List String} {contents : Contents}
    (held : disk.contents? place = some contents) : place.length < disk.depth := by
  have listed : place.length ∈ disk.files.map fun file => file.1.length :=
    List.mem_map.mpr ⟨_, mem_of_contents? held, rfl⟩
  exact Nat.lt_succ_of_le ((le_foldl_max _ 0).2 _ listed)

def joinAll (path : String) (names : List String) : String :=
  names.foldl join path

theorem joinAll_concat (path : String) (names : List String) (name : String) :
    joinAll path (names ++ [name]) = join (joinAll path names) name := by
  rw [joinAll, List.foldl_append]
  rfl

theorem mem_filesBelow (proper : disk.Proper) {depth : Nat} {path file : String}
    {top found : List String} (walked : disk.filesBelow depth path top = .ok found) :
    file ∈ found ↔
      ∃ names contents, names.length < depth ∧ file = joinAll path names
        ∧ disk.contents? (top ++ names) = some contents := by
  -- A name of the directory is the next part of the place, and the depth left is one less.
  induction depth generalizing path top found with
  | zero =>
      cases walked
      simp
  | succ depth ih =>
      rw [filesBelow] at walked
      constructor
      · intro member
        split at walked
        · next contents here =>
            cases walked
            obtain rfl := List.mem_singleton.mp member
            exact ⟨[], contents, Nat.succ_pos depth, rfl,
              by rw [List.append_nil]; exact contents?_of_at? here⟩
        · cases walked
        · obtain ⟨lists, ran, ⟨⟩⟩ := bind_eq_ok.mp walked
          obtain ⟨list, listed, member⟩ := List.mem_flatten.mp member
          obtain ⟨name, _, below⟩ := (mem_of_mapM ran).mp listed
          obtain ⟨names, contents, short, rfl, held⟩ := (ih below).mp member
          rw [List.append_assoc] at held
          exact ⟨name :: names, contents, Nat.succ_lt_succ short, rfl, held⟩
        · cases walked
          cases member
      · rintro ⟨names, contents, short, rfl, held⟩
        cases names with
        | nil =>
            rw [List.append_nil] at held
            rw [at?_of_contents? held] at walked
            cases walked
            exact List.mem_singleton.mpr rfl
        | cons name rest =>
            rw [at?_above proper held] at walked
            cases listing : disk.unlisted.lookup top with
            | some reason =>
                rw [listing] at walked
                cases walked
            | none =>
                rw [listing] at walked
                obtain ⟨lists, ran, ⟨⟩⟩ := bind_eq_ok.mp walked
                obtain ⟨list, below⟩ := exists_of_mapM ran (mem_names held)
                refine List.mem_flatten.mpr
                  ⟨list, (mem_of_mapM ran).mpr ⟨name, mem_names held, below⟩, ?_⟩
                exact (ih below).mpr ⟨rest, contents, Nat.lt_of_succ_lt_succ short, rfl, by
                  rw [List.append_assoc]; exact held⟩

/-- A walk that comes to its end finds all files below a directory. -/
theorem mem_walk (proper : disk.Proper) {path file : String} {top found : List String}
    (walked : disk.walk path top = .ok found) :
    file ∈ found ↔
      ∃ names contents, file = joinAll path names
        ∧ disk.contents? (top ++ names) = some contents := by
  rw [mem_filesBelow proper walked]
  constructor
  · rintro ⟨names, contents, _, same, held⟩
    exact ⟨names, contents, same, held⟩
  · rintro ⟨names, contents, same, held⟩
    have short := length_lt_depth held
    rw [List.length_append] at short
    exact ⟨names, contents, by omega, same, held⟩

/-- The path under which a file is found below a directory leads to the file. -/
theorem leadsTo_joinAll (proper : disk.Proper) {path : String} {top names : List String}
    {contents : Contents} (led : disk.resolve path = (.directory top, top))
    (held : disk.contents? (top ++ names) = some contents) :
    disk.LeadsTo (joinAll path names) (top ++ names) := by
  induction names generalizing path top with
  | nil =>
      have directory := at?_of_resolve led nofun nofun
      rw [List.append_nil] at held
      rw [at?_of_contents? held] at directory
      cases directory
  | cons name rest ih =>
      have called : IsName name := proper.files _ (mem_of_contents? held) name (by simp)
      have joined := resolve_join proper called led
      rw [List.append_cons] at held ⊢
      -- The last name is that of the file; every other one goes down to a directory.
      cases rest with
      | nil =>
          rw [List.append_nil] at held ⊢
          exact ⟨contents, by rw [← at?_of_contents? held]; exact joined⟩
      | cons next rest =>
          rw [at?_above proper held] at joined
          exact ih joined held

end Disk

namespace Cli

open Disk

-- The name of a source file: something, and the extension behind it.
def IsSource (name : String) : Prop :=
  ∃ stem, stem ≠ "" ∧ name = stem ++ ".php"

theorem isSource_iff {name : String} :
    (name.endsWith ".php" && name != ".php") = true ↔ IsSource name := by
  rw [Bool.and_eq_true, endsWith_iff, bne_iff_ne]
  constructor
  · rintro ⟨⟨stem, ends⟩, more⟩
    have split : name = String.ofList stem ++ ".php" := by
      rw [← String.toList_inj, ← ends]
      simp
    exact ⟨String.ofList stem, fun empty => more (by rw [split, empty]; rfl), split⟩
  · rintro ⟨stem, nonempty, rfl⟩
    refine ⟨⟨stem.toList, by simp⟩, fun bare => nonempty ?_⟩
    have short := congrArg String.length bare
    rw [String.length_append] at short
    exact String.length_eq_zero_iff.mp (Nat.add_eq_right.mp short)

theorem fileName?_join {name : String} (called : IsName name) (path : String) :
    Config.fileName? (join path name) = some name := by
  have parts : ∃ front, Text.parts (join path name) = front ++ [name] := by
    obtain ⟨gap, joined, rfl | ⟨rfl, front, rfl⟩⟩ := join_eq path name
    · rw [joined, Text.parts_append, Text.parts_plain called.plain]
      exact ⟨_, rfl⟩
    · rw [joined, String.append_empty, Text.parts_append, Text.parts_plain called.plain]
      exact ⟨_, rfl⟩
  obtain ⟨front, parts⟩ := parts
  have kept : [name].filter (fun part => part ≠ "" ∧ part ≠ ".") = [name] := by
    simp [called.nonempty, called.notHere]
  rw [Config.fileName?, parts, List.filter_append, kept, List.getLast?_concat]
  exact if_neg called.notUp

theorem isSourceName_join {name : String} (called : IsName name) (path : String) :
    isSourceName (join path name) = true ↔ IsSource name := by
  rw [isSourceName, fileName?_join called, Option.any_some, isSource_iff]

/-- The path leads to a file at the place, which was named or is below a directory that was named,
and has the name of a source file then. -/
inductive Asked (disk : Disk) (paths : List String) : String → List String → Prop
  | named {path : String} {place : List String} (listed : path ∈ paths)
      (leads : disk.LeadsTo path place) : Asked disk paths path place
  | below {path : String} {top names : List String} {name : String} (listed : path ∈ paths)
      (directory : disk.find path = .directory top)
      (held : (disk.contents? (top ++ (names ++ [name]))).isSome) (source : IsSource name) :
      Asked disk paths (joinAll path (names ++ [name])) (top ++ (names ++ [name]))

theorem Asked.leadsTo {disk : Disk} (proper : disk.Proper) {paths : List String} {path : String}
    {place : List String} (asked : Asked disk paths path place) : disk.LeadsTo path place := by
  cases asked with
  | named _ leads => exact leads
  | below _ directory held =>
      obtain ⟨contents, held⟩ := Option.isSome_iff_exists.mp held
      exact leadsTo_joinAll proper (resolve_directory directory) held

theorem find_of_leadsTo {disk : Disk} {path : String} {place : List String}
    (leads : disk.LeadsTo path place) : ∃ contents, disk.find path = .file contents := by
  obtain ⟨contents, led⟩ := leads
  exact ⟨contents, by rw [find, led]⟩

theorem mem_collect {disk : Disk} (proper : disk.Proper) {config : Config} {path file : String}
    {set : FileSet} (collected : collect disk config path = .ok set) :
    file ∈ set.files ↔
      (∃ place, Asked disk [path] file place) ∧ config.excludes file = false := by
  unfold collect at collected
  split at collected
  · next contents found =>
      cases collected
      rw [List.mem_filter, List.mem_singleton]
      constructor
      · rintro ⟨rfl, kept⟩
        exact ⟨⟨_, .named (List.mem_singleton.mpr rfl) ⟨contents, Prod.ext found rfl⟩⟩,
          by simpa using kept⟩
      · rintro ⟨⟨place, asked⟩, kept⟩
        cases asked with
        | named listed leads =>
            obtain rfl := List.mem_singleton.mp listed
            exact ⟨rfl, by simp [kept]⟩
        | below listed directory =>
            obtain rfl := List.mem_singleton.mp listed
            rw [found] at directory
            cases directory
  · next top found =>
      split at collected
      · next walked walks =>
          cases collected
          rw [List.mem_filter, mem_walk proper walks]
          constructor
          · rintro ⟨⟨names, contents, rfl, held⟩, kept⟩
            obtain ⟨source, kept⟩ := Bool.and_eq_true_iff.mp kept
            refine ⟨?_, by simpa using kept⟩
            rcases List.eq_nil_or_concat names with rfl | ⟨names, name, ends⟩
            · -- Without a name the file would be where the directory is.
              have directory := at?_of_resolve (resolve_directory found) nofun nofun
              rw [List.append_nil] at held
              rw [at?_of_contents? held] at directory
              cases directory
            · obtain rfl := ends.trans List.concat_eq_append
              have called : IsName name := proper.files _ (mem_of_contents? held) name (by simp)
              rw [joinAll_concat, isSourceName_join called] at source
              exact ⟨_, .below (List.mem_singleton.mpr rfl) found
                (Option.isSome_iff_exists.mpr ⟨contents, held⟩) source⟩
          · rintro ⟨⟨place, asked⟩, kept⟩
            cases asked with
            | named listed leads =>
                obtain rfl := List.mem_singleton.mp listed
                obtain ⟨contents, file⟩ := find_of_leadsTo leads
                rw [found] at file
                cases file
            | @below path top names name listed directory held source =>
                obtain rfl := List.mem_singleton.mp listed
                obtain rfl := Found.directory.inj (found.symm.trans directory)
                obtain ⟨contents, held⟩ := Option.isSome_iff_exists.mp held
                have called : IsName name := proper.files _ (mem_of_contents? held) name (by simp)
                have named := (isSourceName_join called (joinAll path names)).mpr source
                rw [← joinAll_concat] at named
                exact ⟨⟨_, contents, rfl, held⟩, by simp [named, kept]⟩
      · cases collected
  · next noFile noDirectory =>
      cases collected
      refine iff_of_false List.not_mem_nil ?_
      rintro ⟨⟨place, asked⟩, _⟩
      cases asked with
      | named listed leads =>
          obtain rfl := List.mem_singleton.mp listed
          obtain ⟨contents, found⟩ := find_of_leadsTo leads
          exact noFile contents found
      | below listed directory =>
          obtain rfl := List.mem_singleton.mp listed
          exact noDirectory _ directory

theorem asked_iff {disk : Disk} {paths : List String} {file : String} {place : List String} :
    Asked disk paths file place ↔ ∃ path ∈ paths, Asked disk [path] file place := by
  constructor
  · intro asked
    cases asked with
    | named listed leads => exact ⟨_, listed, .named (List.mem_singleton.mpr rfl) leads⟩
    | below listed directory held source =>
        exact ⟨_, listed, .below (List.mem_singleton.mpr rfl) directory held source⟩
  · rintro ⟨path, listed, asked⟩
    cases asked with
    | named single leads =>
        obtain rfl := List.mem_singleton.mp single
        exact .named listed leads
    | below single directory held source =>
        obtain rfl := List.mem_singleton.mp single
        exact .below listed directory held source

/-- Files are taken that are asked for and not excluded. -/
theorem mem_collectAll {disk : Disk} (proper : disk.Proper) {config : Config}
    {paths : List String} {set : FileSet} (collected : collectAll disk config paths = .ok set)
    {file : String} :
    file ∈ set.files ↔ (∃ place, Asked disk paths file place) ∧ config.excludes file = false := by
  obtain ⟨sets, ran, ⟨⟩⟩ := bind_eq_ok.mp collected
  rw [List.mem_flatMap]
  constructor
  · rintro ⟨part, listed, found⟩
    obtain ⟨path, listed, here⟩ := (mem_of_mapM ran).mp listed
    obtain ⟨⟨place, asked⟩, kept⟩ := (mem_collect proper here).mp found
    exact ⟨⟨place, asked_iff.mpr ⟨path, listed, asked⟩⟩, kept⟩
  · rintro ⟨⟨place, asked⟩, kept⟩
    obtain ⟨path, listed, asked⟩ := asked_iff.mp asked
    obtain ⟨part, here⟩ := exists_of_mapM ran listed
    exact ⟨part, (mem_of_mapM ran).mpr ⟨path, listed, here⟩,
      (mem_collect proper here).mpr ⟨⟨place, asked⟩, kept⟩⟩

theorem read_eq_ok {disk : Disk} {path source : String} {place : List String}
    (leads : disk.LeadsTo path place) :
    disk.read path = .ok source ↔ disk.contents? place = some (.text source) := by
  obtain ⟨contents, led⟩ := leads
  rw [Disk.read, find, led, contents?_of_resolve led]
  cases contents <;> simp

theorem mem_readUnits {disk : Disk} {files : List String} {unit : SourceUnit} :
    unit ∈ (readUnits disk files).1 ↔ unit.id ∈ files ∧ disk.read unit.id = .ok unit.source := by
  induction files with
  | nil => simp [readUnits]
  | cons path rest ih =>
      rw [readUnits]
      cases found : disk.read path with
      | error reason =>
          have other : disk.read unit.id = .ok unit.source → unit.id ≠ path := by
            rintro read rfl
            rw [read] at found
            cases found
          dsimp only
          rw [ih, List.mem_cons]
          exact and_congr_left fun read => (or_iff_right (other read)).symm
      | ok source =>
          dsimp only
          rw [List.mem_cons, ih, List.mem_cons, or_and_right]
          refine or_congr_left ?_
          constructor
          · rintro rfl
            exact ⟨rfl, found⟩
          · rintro ⟨rfl, read⟩
            rw [read] at found
            cases found
            rfl

/-- A file that cannot be read is reported with an error. -/
theorem mem_failures {disk : Disk} {files : List String} {result : FileResult} :
    result ∈ (readUnits disk files).2 ↔
      ∃ path ∈ files, ∃ reason, disk.read path = .error reason
        ∧ result = .failed path s!"Failed to read file: {path}: {reason}" := by
  induction files with
  | nil => simp [readUnits]
  | cons path rest ih =>
      rw [readUnits]
      cases found : disk.read path with
      | error reason => simp [ih, found]
      | ok source => simp [ih, found]

theorem exists_unreadable {disk : Disk} (proper : disk.Proper) {config : Config}
    {paths : List String} {set : FileSet} (collected : collectAll disk config paths = .ok set) :
    (∃ path ∈ set.files, ∃ reason, disk.read path = .error reason) ↔
      ∃ path place, Asked disk paths path place ∧ config.excludes path = false
        ∧ ∀ source, disk.contents? place ≠ some (.text source) := by
  constructor
  · rintro ⟨path, taken, reason, unread⟩
    obtain ⟨⟨place, asked⟩, kept⟩ := (mem_collectAll proper collected).mp taken
    refine ⟨path, place, asked, kept, fun source held => ?_⟩
    rw [(read_eq_ok (asked.leadsTo proper)).mpr held] at unread
    cases unread
  · rintro ⟨path, place, asked, kept, unheld⟩
    refine ⟨path, (mem_collectAll proper collected).mpr ⟨⟨place, asked⟩, kept⟩, ?_⟩
    cases read : disk.read path with
    | error reason => exact ⟨reason, rfl⟩
    | ok source => exact absurd ((read_eq_ok (asked.leadsTo proper)).mp read) (unheld source)

end Cli

end Codemod
