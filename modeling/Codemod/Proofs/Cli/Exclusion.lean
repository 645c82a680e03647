import Codemod.Config
import Codemod.Proofs.Cli.Paths
import Codemod.Proofs.Text.Gaps
import Mathlib.Data.List.DropRight
import Mathlib.Data.List.Infix

/-!
Directories that are left out. A pattern without wildcards stands for nothing but its own text. One that
ends in a slash looks for its directory at the start of the path and between slashes, which is to look
for its parts among those of the path, the last one aside (`excludes_directory`).
-/

namespace Codemod

namespace Glob

variable {cs : List Char} {c : Char}

/-- A character that stands for itself in a pattern. -/
structure IsPlain (c : Char) : Prop where
  single : c ≠ '?'
  run : c ≠ '*'
  set : c ≠ '['

theorem tokens_cons_plain (plain : IsPlain c) (steps : Nat) (opens : Bool) (done : List Token)
    (rest : List Char) :
    tokens (steps + 1) opens done (c :: rest) = tokens steps (c == '/') (.char c :: done) rest := by
  rw [tokens]
  exacts [plain.single, plain.run, plain.set]

theorem tokens_plain (plain : ∀ c ∈ cs, IsPlain c) (opens : Bool) (done : List Token) :
    tokens cs.length opens done cs = some (done.reverse ++ cs.map .char) := by
  induction cs generalizing opens done with
  | nil => simp [tokens]
  | cons c cs ih =>
      obtain ⟨first, later⟩ := List.forall_mem_cons.mp plain
      rw [List.length_cons, tokens_cons_plain first, ih later]
      simp

theorem takesAll_plain (cs text : List Char) : takesAll (cs.map .char) text = true ↔ text = cs := by
  induction cs generalizing text with
  | nil => simp [takesAll]
  | cons c cs ih =>
      cases text with
      | nil => simp [takesAll]
      | cons first rest =>
          rw [List.map_cons, takesAll, Bool.and_eq_true, ih, List.cons.injEq]
          · exact and_congr_left' (beq_iff_eq.trans eq_comm)
          all_goals simp

/-- A pattern without wildcards stands for its own text only. -/
theorem accepts_plain {pattern path : String} (plain : ∀ c ∈ pattern.toList, IsPlain c) :
    accepts pattern path = true ↔ path = pattern := by
  rw [accepts_eq, parse?, tokens_plain plain, ← String.toList_inj]
  exact takesAll_plain _ _

theorem ends_eq_tails (cs : List Char) : ends cs = cs.tails := by
  induction cs with
  | nil => rfl
  | cons c cs ih => rw [ends, ih, List.tails_cons]

end Glob

namespace Text

/-- Lists of parts, one after the other. -/
theorem intercalate_append {front back : List (List Char)} (before : front ≠ [])
    (behind : back ≠ []) :
    ['/'].intercalate (front ++ back)
      = ['/'].intercalate front ++ '/' :: ['/'].intercalate back := by
  induction front with
  | nil => exact absurd rfl before
  | cons part front ih =>
      cases front with
      | nil =>
          obtain ⟨first, rest, rfl⟩ := List.exists_cons_of_ne_nil behind
          simp [List.intercalate_cons_cons]
      | cons next front =>
          have rest := ih (List.cons_ne_nil next front)
          rw [List.cons_append, List.cons_append, List.intercalate_cons_cons,
            List.intercalate_cons_cons, ← List.cons_append, rest]
          simp

/-- A path goes through a directory where it starts with it or has it between slashes. -/
theorem splitOn_infix_iff {directory cs : List Char} :
    directory.splitOn '/' <:+: (cs.splitOn '/').dropLast
      ↔ directory ++ ['/'] <+: cs ∨ '/' :: directory ++ ['/'] <:+: cs := by
  constructor
  · rintro ⟨front, back, run⟩
    -- The path is its parts again, and behind those of the directory there is the last one at least.
    have parts := List.dropLast_concat_getLast (List.splitOn_ne_nil '/' cs)
    generalize (cs.splitOn '/').getLast _ = last at parts
    rw [← run, List.append_assoc, List.append_assoc] at parts
    have behind : ['/'].intercalate (directory.splitOn '/' ++ (back ++ [last]))
        = directory ++ '/' :: ['/'].intercalate (back ++ [last]) := by
      rw [intercalate_append (List.splitOn_ne_nil _ _) (by simp), List.intercalate_splitOn]
    have whole : cs = ['/'].intercalate (front ++ (directory.splitOn '/' ++ (back ++ [last]))) := by
      rw [parts, List.intercalate_splitOn]
    rw [whole]
    cases front with
    | nil =>
        left
        rw [List.nil_append, behind]
        exact ⟨_, List.append_assoc ..⟩
    | cons part front =>
        right
        rw [intercalate_append (List.cons_ne_nil _ _) (by simp), behind]
        exact ⟨['/'].intercalate (part :: front), ['/'].intercalate (back ++ [last]), by simp⟩
  · have parts : ∀ rest, (directory ++ '/' :: rest).splitOn '/'
        = directory.splitOn '/' ++ rest.splitOn '/' := List.splitOn_append_cons_self directory
    rintro (⟨rest, rfl⟩ | ⟨front, rest, rfl⟩)
    · rw [List.append_assoc, List.singleton_append, parts,
        List.dropLast_append_of_ne_nil (List.splitOn_ne_nil _ _)]
      exact (List.prefix_append ..).isInfix
    · have whole : front ++ ('/' :: directory ++ ['/']) ++ rest
          = front ++ '/' :: (directory ++ '/' :: rest) := by simp
      rw [whole, List.splitOn_append_cons_self, parts, ← List.append_assoc,
        List.dropLast_append_of_ne_nil (List.splitOn_ne_nil _ _)]
      exact ⟨_, _, rfl⟩

theorem slash_notMem_of_mem_splitOn {cs part : List Char} (member : part ∈ cs.splitOn '/') :
    '/' ∉ part := by
  induction cs generalizing part with
  | nil => simp_all
  | cons c cs ih =>
      obtain ⟨first, rest, parts⟩ := List.exists_cons_of_ne_nil (List.splitOn_ne_nil '/' cs)
      rw [List.splitOn_cons_eq_if_modifyHead, parts, List.modifyHead_cons] at member
      rw [parts] at ih
      split at member
      · rcases List.mem_cons.mp member with rfl | later
        · exact List.not_mem_nil
        · exact ih later
      · next other =>
          rcases List.mem_cons.mp member with rfl | later
          · simp [ih List.mem_cons_self, Ne.symm (ne_of_beq_false (Bool.eq_false_iff.mpr other))]
          · exact ih (List.mem_cons_of_mem _ later)

end Text

namespace Config

theorem hasInfix_iff {cs part : List Char} : hasInfix cs part = true ↔ part <:+: cs := by
  rw [hasInfix, Glob.ends_eq_tails, List.any_eq_true, List.infix_iff_prefix_suffix]
  simp [List.mem_tails, and_comm]

variable {directory path : String}

/-- The last part of a path has no slash in it. -/
theorem slash_notMem_fileName? {path name : String} (found : fileName? path = some name) :
    '/' ∉ name.toList := by
  unfold fileName? at found
  split at found
  · next last ends =>
      have member := List.mem_of_mem_filter (List.mem_of_getLast? ends)
      obtain ⟨part, among, rfl⟩ := List.mem_map.mp member
      split at found
      · cases found
      · cases found
        rw [String.toList_ofList]
        exact Text.slash_notMem_of_mem_splitOn among
  · cases found

/-- A pattern with a slash at its end looks for the directory before the slash. -/
theorem passesThrough_iff (closed : directory.toList.getLast? ≠ some '/') :
    passesThrough path (directory ++ "/") = true
      ↔ Text.parts directory <:+: (Text.parts path).dropLast := by
  have stripped : Text.dropTrailing (· == '/') (directory ++ "/").toList = directory.toList := by
    rw [String.toList_append, Text.dropTrailing_append _ (by simp)]
    refine List.rdropWhile_eq_self_iff.mpr fun nonempty slash => closed ?_
    rw [List.getLast?_eq_some_getLast nonempty, beq_iff_eq.mp slash]
  have apart : Function.Injective String.ofList := fun _ _ => String.ofList_injective
  rw [passesThrough, stripped, Bool.or_eq_true, List.isPrefixOf_iff_prefix, hasInfix_iff,
    ← List.cons_append, ← Text.splitOn_infix_iff, Text.parts, Text.parts, ← List.map_dropLast]
  refine ⟨fun run => run.map _, fun run => ?_⟩
  obtain ⟨parts, among, same⟩ := List.infix_map_iff.mp run
  rwa [List.map_injective_iff.mpr apart same]

/-- Where one directory is to be left out, a path is left out if it goes through that directory: the
parts of the directory follow one another among the parts of the path before the last one. -/
theorem excludes_directory (config : Config) (directory path : String)
    (only : config.exclude = [directory ++ "/"])
    (closed : directory.toList.getLast? ≠ some '/')
    (plain : ∀ c ∈ directory.toList, c ≠ '*' ∧ c ≠ '?' ∧ c ≠ '[') :
    config.excludes path = true ↔ Text.parts directory <:+: (Text.parts path).dropLast := by
  have literal : ∀ c ∈ (directory ++ "/").toList, Glob.IsPlain c := by
    intro c member
    rw [String.toList_append, List.mem_append] at member
    rcases member with inside | slash
    · obtain ⟨run, single, set⟩ := plain c inside
      exact ⟨single, run, set⟩
    · cases List.mem_singleton.mp slash
      exact ⟨by decide, by decide, by decide⟩
  have ends : (directory ++ "/").endsWith "/" = true :=
    Disk.endsWith_iff.mpr ⟨directory.toList, by simp⟩
  -- No last part of a path is the pattern, which has a slash.
  have unnamed : (fileName? path).any (Glob.accepts (directory ++ "/")) = false := by
    cases found : fileName? path with
    | none => rfl
    | some name =>
        refine Bool.eq_false_iff.mpr fun accepted => slash_notMem_fileName? found ?_
        rw [(Glob.accepts_plain literal).mp accepted]
        simp
  rw [excludes, only, List.any_cons, List.any_nil, Bool.or_false, excludedBy, unnamed, ends,
    Bool.or_false, Bool.true_and, Bool.or_eq_true, Glob.accepts_plain literal,
    passesThrough_iff closed]
  refine or_iff_right_of_imp ?_
  -- The directory with a slash and nothing behind it has a last part, which is empty.
  rintro rfl
  have empty : Text.parts "" = [""] := Text.parts_plain (by decide)
  have parted := Text.parts_append directory ""
  rw [String.append_empty, empty] at parted
  rw [parted, List.dropLast_concat]

/-- A directory of two parts is found inside a path, and neither where a name only starts like it nor
where it is the last thing named. -/
theorem excludes_directory_vendor :
    ({ exclude := ["vendor/lib/"] } : Config).excludes "/srv/vendor/lib/src/a.php" = true
      ∧ ({ exclude := ["vendor/lib/"] } : Config).excludes "vendor/library/a.php" = false
      ∧ ({ exclude := ["vendor/lib/"] } : Config).excludes "src/vendor/lib" = false := by
  have found : ∀ path, ({ exclude := ["vendor/lib/"] } : Config).excludes path = true
      ↔ Text.parts "vendor/lib" <:+: (Text.parts path).dropLast := fun path =>
    excludes_directory _ "vendor/lib" path rfl (by decide +kernel) (by simp)
  refine ⟨(found _).mpr (by decide +kernel), ?_, ?_⟩
  · exact Bool.eq_false_iff.mpr fun excluded => absurd ((found _).mp excluded) (by decide +kernel)
  · exact Bool.eq_false_iff.mpr fun excluded => absurd ((found _).mp excluded) (by decide +kernel)

end Config

end Codemod
