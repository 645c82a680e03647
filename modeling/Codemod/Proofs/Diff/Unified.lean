import Codemod.Proofs.Diff.Hunks
import Mathlib.Data.List.Basic

/-!
The unified form of a difference. Behind the two lines that name the file stands a patch, save that a
line without an end of its own is followed by an empty line, which no patch has. Where the empty lines
are taken for that, the patch turns the old text into the new one (`unified_applies`).
-/

namespace Codemod.Diff

def Hunk.text (hunk : Hunk) : String :=
  hunk.header ++ String.join (hunk.entries.map fun entry => hunkLine entry.1 entry.2)

theorem rangeText_length (start stop : Nat) :
    rangeText start (start + (stop - start)) = rangeText start stop := by
  rw [rangeText, rangeText, Nat.add_sub_cancel_left]

theorem hunkText_eq (old new : List String) (blocks : List Block) :
    hunkText old new blocks = ((hunk? old new blocks).map Hunk.text).getD "" := by
  cases blocks with
  | nil => rfl
  | cons first rest =>
      have ends := List.getLast?_eq_some_getLast (List.cons_ne_nil first rest)
      simp only [hunkText, hunk?, ends, Option.map_some, Option.getD_some, Hunk.text, Hunk.header,
        header, Extent.text, rangeText_length]

theorem join_hunkText (old new : List String) (parts : List (List Block)) :
    String.join (parts.map (hunkText old new))
      = String.join ((parts.filterMap (hunk? old new)).map Hunk.text) := by
  induction parts with
  | nil => rfl
  | cons blocks rest ih =>
      rw [List.map_cons, String.join_cons, ih, hunkText_eq, List.filterMap_cons]
      cases hunk? old new blocks with
      | none => exact String.empty_append
      | some hunk => exact String.join_cons.symm

/-- Behind the lines that name the file stands one hunk after the other. -/
theorem unified_eq (path old new : String) :
    unified path old new = s!"--- a/{path}\n+++ b/{path}\n"
      ++ String.join ((foundHunks (lines old) (lines new)).map Hunk.text) := by
  rw [unified, join_hunkText, foundHunks]

-- The lines in which an entry is written: a second, empty one if the line has no end.
def entryLines (entry : Mark × String) : List String :=
  if isTerminated entry.2 then [entry.1.sign ++ entry.2] else [entry.1.sign ++ entry.2 ++ "\n", "\n"]

def Hunk.lines (hunk : Hunk) : List String :=
  hunk.header :: hunk.entries.flatMap entryLines

-- Lines without an end of their own, where an empty line behind them says so.
def unended : List String → List String
  | line :: next :: rest =>
      if next = "\n" then String.ofList line.toList.dropLast :: unended rest
      else line :: unended (next :: rest)
  | lines => lines

theorem Mark.toList_sign (mark : Mark) : ∃ sign, mark.sign.toList = [sign] ∧ Inner sign := by
  cases mark with
  | kept => exact ⟨' ', rfl, by decide⟩
  | deleted => exact ⟨'-', rfl, by decide⟩
  | inserted => exact ⟨'+', rfl, by decide⟩

theorem Hunk.header_ended (hunk : Hunk) : Ended hunk.header.toList := by
  have inner : ∀ extent : Extent, ∀ c ∈ extent.text.toList, Inner c := by
    intro extent c member
    rcases mem_rangeText member with digit | rfl
    · refine ⟨?_, ?_⟩ <;> rintro rfl <;> exact absurd digit (by decide)
    · decide
  have whole : hunk.header.toList = ['@', '@', ' ', '-'] ++ hunk.old.text.toList ++ [' ', '+']
      ++ hunk.new.text.toList ++ [' ', '@', '@'] ++ ['\n'] := by
    rw [hunk.toList_header]
    simp
  rw [whole]
  refine .intro _ ?_ .lineFeed
  simp only [List.forall_mem_append]
  exact ⟨⟨⟨⟨by simp [Inner], inner _⟩, by simp [Inner]⟩, inner _⟩, by simp [Inner]⟩

variable {entry : Mark × String} {rest : String}

/-- An entry and what follows it, line by line. -/
theorem lines_hunkLine
    (line : IsLine entry.2) (apart : rest.toList.head? ≠ some '\n') :
    lines (hunkLine entry.1 entry.2 ++ rest) = entryLines entry ++ lines rest := by
  obtain ⟨sign, signed, inner⟩ := entry.1.toList_sign
  cases line with
  | terminated found ended =>
      have whole : Ended (entry.1.sign ++ entry.2).toList := by
        rw [String.toList_append, signed]
        exact ended.cons inner
      rw [hunkLine, entryLines, found, if_pos rfl, if_pos rfl, String.append_empty,
        lines_ended whole (Or.inr apart), List.singleton_append]
  | unterminated found unended =>
      have first : Ended (entry.1.sign ++ entry.2 ++ "\n").toList := by
        rw [String.toList_append, String.toList_append, signed]
        exact .intro _ (List.forall_mem_cons.mpr ⟨inner, unended.inner⟩) .lineFeed
      have second : Ended "\n".toList := .intro [] (List.forall_mem_nil _) .lineFeed
      have parts : entry.1.sign ++ entry.2 ++ "\n\n" ++ rest
          = (entry.1.sign ++ entry.2 ++ "\n") ++ ("\n" ++ rest) := by
        rw [← String.toList_inj]
        simp
      rw [hunkLine, entryLines, found, if_neg Bool.false_ne_true, if_neg Bool.false_ne_true, parts,
        lines_ended first (Or.inl (by simp)), lines_ended second (Or.inl rfl)]
      rfl

/-- No text of entries begins with the end of a line. -/
theorem head?_entries (entries : List (Mark × String)) (apart : rest.toList.head? ≠ some '\n') :
    (String.join (entries.map fun entry => hunkLine entry.1 entry.2) ++ rest).toList.head?
      ≠ some '\n' := by
  cases entries with
  | nil => simpa using apart
  | cons entry entries =>
      obtain ⟨sign, signed, inner⟩ := entry.1.toList_sign
      simp [hunkLine, signed, inner.1]

theorem lines_entries {entries : List (Mark × String)} (proper : ∀ entry ∈ entries, IsLine entry.2)
    (apart : rest.toList.head? ≠ some '\n') :
    lines (String.join (entries.map fun entry => hunkLine entry.1 entry.2) ++ rest)
      = entries.flatMap entryLines ++ lines rest := by
  induction entries with
  | nil => simp
  | cons entry entries ih =>
      obtain ⟨first, others⟩ := List.forall_mem_cons.mp proper
      rw [List.map_cons, String.join_cons, String.append_assoc,
        lines_hunkLine first (head?_entries entries apart), ih others, List.flatMap_cons,
        List.append_assoc]

theorem lines_hunk {hunk : Hunk} (proper : ∀ entry ∈ hunk.entries, IsLine entry.2)
    (apart : rest.toList.head? ≠ some '\n') :
    lines (hunk.text ++ rest) = hunk.lines ++ lines rest := by
  rw [Hunk.text, String.append_assoc,
    lines_ended hunk.header_ended (Or.inr (head?_entries hunk.entries apart)),
    lines_entries proper apart]
  rfl

/-- Hunks are written one after the other, line by line. -/
theorem lines_hunks {hunks : List Hunk}
    (proper : ∀ hunk ∈ hunks, ∀ entry ∈ hunk.entries, IsLine entry.2) :
    lines (String.join (hunks.map Hunk.text)) = hunks.flatMap Hunk.lines := by
  induction hunks with
  | nil => rfl
  | cons hunk hunks ih =>
      obtain ⟨first, others⟩ := List.forall_mem_cons.mp proper
      have apart : (String.join (hunks.map Hunk.text)).toList.head? ≠ some '\n' := by
        cases hunks with
        | nil => exact nofun
        | cons next hunks => simp [Hunk.text, next.toList_header]
      rw [List.map_cons, String.join_cons, lines_hunk first apart, ih others, List.flatMap_cons]

theorem entryLines_terminated (found : isTerminated entry.2 = true) :
    entryLines entry = [entry.1.sign ++ entry.2] :=
  if_pos found

theorem entryLines_unterminated (found : isTerminated entry.2 = false) :
    entryLines entry = [entry.1.sign ++ entry.2 ++ "\n", "\n"] :=
  if_neg (Bool.eq_false_iff.mp found)

theorem unended_cons {line : String} {rest : List String} (apart : rest.head? ≠ some "\n") :
    unended (line :: rest) = line :: unended rest := by
  cases rest with
  | nil => rfl
  | cons next rest => exact if_neg fun same => apart (congrArg some same)

theorem Mark.sign_append_ne (mark : Mark) (text : String) : mark.sign ++ text ≠ "\n" := by
  obtain ⟨sign, signed, inner⟩ := mark.toList_sign
  intro same
  have chars := congrArg String.toList same
  simp [signed, inner.1] at chars

theorem Hunk.header_ne (hunk : Hunk) : hunk.header ≠ "\n" := by
  intro same
  have chars := congrArg String.toList same
  simp [hunk.toList_header] at chars

/-- No entry begins with an empty line. -/
theorem head?_entryLines {rest : List String} (entries : List (Mark × String))
    (apart : rest.head? ≠ some "\n") :
    (entries.flatMap entryLines ++ rest).head? ≠ some "\n" := by
  cases entries with
  | nil => exact apart
  | cons entry entries =>
      cases found : isTerminated entry.2 with
      | true => simp [entryLines_terminated found, Mark.sign_append_ne]
      | false => simp [entryLines_unterminated found, String.append_assoc, Mark.sign_append_ne]

theorem unended_entries {rest : List String} (entries : List (Mark × String))
    (apart : rest.head? ≠ some "\n") :
    unended (entries.flatMap entryLines ++ rest)
      = entries.map (fun entry => entry.1.sign ++ entry.2) ++ unended rest := by
  induction entries with
  | nil => rfl
  | cons entry entries ih =>
      rw [List.flatMap_cons, List.append_assoc]
      cases found : isTerminated entry.2 with
      | true =>
          rw [entryLines_terminated found, List.singleton_append,
            unended_cons (head?_entryLines entries apart), ih]
          rfl
      | false =>
          have bare : String.ofList (entry.1.sign ++ entry.2 ++ "\n").toList.dropLast
              = entry.1.sign ++ entry.2 := by
            rw [String.toList_append, show "\n".toList = ['\n'] from rfl, List.dropLast_concat,
              String.ofList_toList]
          rw [entryLines_unterminated found, List.cons_append, List.singleton_append, unended,
            if_pos rfl, bare, ih]
          rfl

theorem unended_hunks (hunks : List Hunk) :
    unended (hunks.flatMap Hunk.lines) = hunks.flatMap Hunk.plainLines := by
  induction hunks with
  | nil => rfl
  | cons hunk hunks ih =>
      have apart : (hunks.flatMap Hunk.lines).head? ≠ some "\n" := by
        cases hunks with
        | nil => exact nofun
        | cons next hunks => simp [Hunk.lines, next.header_ne]
      rw [List.flatMap_cons, Hunk.lines, List.cons_append,
        unended_cons (head?_entryLines hunk.entries apart), unended_entries hunk.entries apart, ih]
      rfl

theorem flatMap_lines_of_terminated {hunks : List Hunk}
    (terminated : ∀ hunk ∈ hunks, ∀ entry ∈ hunk.entries, isTerminated entry.2 = true) :
    hunks.flatMap Hunk.lines = hunks.flatMap Hunk.plainLines := by
  refine List.flatMap_congr fun hunk member => ?_
  rw [Hunk.lines, Hunk.plainLines, List.map_eq_flatMap]
  exact congrArg _ (List.flatMap_congr fun entry among =>
    entryLines_terminated (terminated hunk member entry among))

/-- The unified form is two lines that name the file and a patch that turns the old text into the new
one, once empty lines are taken for what they say of the line before. No patch has these lines, so as
it stands it is one only where each of its lines has an end. -/
theorem unified_applies (path old new : String)
    (correct : Leads 0 0 (lines old) (lines new) (foundHunks (lines old) (lines new))) :
    ∃ body patch, unified path old new = s!"--- a/{path}\n+++ b/{path}\n" ++ body
      ∧ read? (unended (lines body)) = some patch
      ∧ (∀ hunk ∈ patch, hunk.old.count = (oldSide hunk.entries).length
        ∧ hunk.new.count = (newSide hunk.entries).length)
      ∧ (patched? patch (lines old)).map String.join = some new
      ∧ read? (lines body)
        = if ∀ hunk ∈ patch, ∀ entry ∈ hunk.entries, isTerminated entry.2 = true then some patch
          else none := by
  have proper : ∀ hunk ∈ foundHunks (lines old) (lines new), ∀ entry ∈ hunk.entries,
      IsLine entry.2 := by
    intro hunk member entry among
    rcases correct.mem hunk member entry among with inOld | inNew
    · exact isLine_of_mem_lines inOld
    · exact isLine_of_mem_lines inNew
  refine ⟨_, foundHunks (lines old) (lines new), unified_eq path old new, ?_, correct.counts, ?_, ?_⟩
  · rw [lines_hunks proper, unended_hunks, read?_plainLines]
  · rw [patched?_of_leads correct, Option.map_some, join_lines]
  · rw [lines_hunks proper]
    split
    case isTrue terminated => rw [flatMap_lines_of_terminated terminated, read?_plainLines]
    case isFalse broken =>
      simp only [not_forall] at broken
      obtain ⟨hunk, member, entry, among, found⟩ := broken
      have stray : "\n" ∈ (foundHunks (lines old) (lines new)).flatMap Hunk.lines := by
        refine List.mem_flatMap.mpr ⟨hunk, member, List.mem_cons_of_mem _ ?_⟩
        refine List.mem_flatMap.mpr ⟨entry, among, ?_⟩
        rw [entryLines_unterminated (Bool.eq_false_iff.mpr found)]
        exact List.mem_cons_of_mem _ List.mem_cons_self
      exact read?_stray stray (by decide) (by decide)

theorem unified_applies_last_line :
    Leads 0 0 (lines "a\nb\n") (lines "a\nc") (foundHunks (lines "a\nb\n") (lines "a\nc"))
      ∧ ∃ body patch, unified "p" "a\nb\n" "a\nc" = "--- a/p\n+++ b/p\n" ++ body
        ∧ read? (unended (lines body)) = some patch
        ∧ (∀ hunk ∈ patch, hunk.old.count = (oldSide hunk.entries).length
          ∧ hunk.new.count = (newSide hunk.entries).length)
        ∧ (patched? patch (lines "a\nb\n")).map String.join = some "a\nc"
        ∧ read? (lines body)
          = if ∀ hunk ∈ patch, ∀ entry ∈ hunk.entries, isTerminated entry.2 = true then some patch
            else none := by
  have tiles : Tiles (lines "a\nb\n") (lines "a\nc") (0, 0)
      (blocks (lines "a\nb\n") (lines "a\nc")) (2, 2) := by
    decide +kernel
  have correct := leads_of_tiles tiles
  exact ⟨correct, unified_applies "p" "a\nb\n" "a\nc" correct⟩

/-- An empty line follows a last line that has no end, and the text is no patch. -/
theorem unified_strays :
    Leads 0 0 (lines "a\n") (lines "b") (foundHunks (lines "a\n") (lines "b"))
      ∧ unified "p" "a\n" "b" = "--- a/p\n+++ b/p\n" ++ "@@ -1 +1 @@\n-a\n+b\n\n"
      ∧ read? (lines "@@ -1 +1 @@\n-a\n+b\n\n") = none := by
  have tiles : Tiles (lines "a\n") (lines "b") (0, 0) (blocks (lines "a\n") (lines "b")) (1, 1) := by
    decide +kernel
  exact ⟨leads_of_tiles tiles, by decide +kernel, by decide +kernel⟩

end Codemod.Diff
