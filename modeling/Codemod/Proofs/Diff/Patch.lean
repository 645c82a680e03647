import Codemod.Proofs.Diff.Lines

/-!
Patches. A hunk says where its lines stand in the old text and in the new one, and lists them with what
happens to them. Hunks are read from lines that are headers or marked, and are put into a list of lines
in place of those that they take out. Main statements: reading undoes writing (`read?_plainLines`), and
hunks that lead from one list of lines to another turn the one into the other (`patched?_of_leads`).
-/

namespace Codemod.Diff

structure Extent where
  start : Nat
  count : Nat
deriving DecidableEq, Repr

structure Hunk where
  old : Extent
  new : Extent
  entries : List (Mark × String)
deriving DecidableEq, Repr

def oldSide (entries : List (Mark × String)) : List String :=
  (entries.filter fun entry => entry.1 != .inserted).map Prod.snd

def newSide (entries : List (Mark × String)) : List String :=
  (entries.filter fun entry => entry.1 != .deleted).map Prod.snd

def readNumber? (text : List Char) : Option Nat :=
  if text ≠ [] ∧ text.all Char.isDigit then some (Nat.ofDigitChars 10 text 0) else none

/-- The number of the first line and that of all lines, where it is not one. For no lines the first
number is that of the line before. -/
def readExtent? (text : List Char) : Option Extent :=
  match text.splitOn ',' with
  | [first] => (readNumber? first).map fun first => ⟨first - 1, 1⟩
  | [first, count] => do
      let first ← readNumber? first
      let count ← readNumber? count
      return ⟨if count = 0 then first else first - 1, count⟩
  | _ => none

def readHeader? (line : String) : Option (Extent × Extent) :=
  match line.toList.splitOn ' ' with
  | [['@', '@'], '-' :: old, '+' :: new, ['@', '@', '\n']] => do
      return (← readExtent? old, ← readExtent? new)
  | _ => none

def Mark.ofSign? : Char → Option Mark
  | ' ' => some .kept
  | '-' => some .deleted
  | '+' => some .inserted
  | _ => none

def readMarked? (line : String) : Option (Mark × String) :=
  match line.toList with
  | [] => none
  | sign :: rest => (Mark.ofSign? sign).map fun mark => (mark, String.ofList rest)

-- The entries at the front, and the hunks behind them. Every line is an entry or a header.
def readBelow? : List String → Option (List (Mark × String) × List Hunk)
  | [] => some ([], [])
  | line :: rest => do
      let (entries, hunks) ← readBelow? rest
      match readMarked? line with
      | some entry => return (entry :: entries, hunks)
      | none =>
          let (old, new) ← readHeader? line
          return ([], ⟨old, new, entries⟩ :: hunks)

def read? (lines : List String) : Option (List Hunk) :=
  match readBelow? lines with
  | some ([], hunks) => some hunks
  | _ => none

def Extent.text (extent : Extent) : String :=
  rangeText extent.start (extent.start + extent.count)

namespace Hunk

def header (hunk : Hunk) : String :=
  s!"@@ -{hunk.old.text} +{hunk.new.text} @@" ++ "\n"

def plainLines (hunk : Hunk) : List String :=
  hunk.header :: hunk.entries.map fun entry => entry.1.sign ++ entry.2

end Hunk

theorem isDigit_of_mem_number {n : Nat} {c : Char} (member : c ∈ n.repr.toList) :
    c.isDigit = true := by
  rw [Nat.repr_eq_ofList_toDigits, String.toList_ofList] at member
  exact Nat.isDigit_of_mem_toDigits (by decide) (by decide) member

theorem readNumber?_repr (n : Nat) : readNumber? n.repr.toList = some n := by
  have digits : n.repr.toList.all Char.isDigit = true :=
    List.all_eq_true.mpr fun _ => isDigit_of_mem_number
  have nonempty : n.repr.toList ≠ [] := by simp
  rw [readNumber?, if_pos ⟨nonempty, digits⟩, Nat.repr_eq_ofList_toDigits, String.toList_ofList,
    Nat.ofDigitChars_toDigits (by decide) (by decide)]

/-- Both numbers of a range as they are written; the second one is left out where it is one. -/
theorem toList_rangeText (start stop : Nat) :
    (rangeText start stop).toList
      = if stop - start = 1 then (start + 1).repr.toList
        else (if stop - start = 0 then start else start + 1).repr.toList
          ++ ',' :: (stop - start).repr.toList := by
  unfold rangeText
  by_cases single : stop - start = 1
  · rw [if_pos single, if_pos single]
    rfl
  · by_cases empty : stop - start = 0
    · simp [empty, toString]
    · simp [single, empty, toString]

theorem mem_rangeText {start stop : Nat} {c : Char} (member : c ∈ (rangeText start stop).toList) :
    c.isDigit = true ∨ c = ',' := by
  rw [toList_rangeText] at member
  split at member
  · exact Or.inl (isDigit_of_mem_number member)
  · rcases List.mem_append.mp member with first | rest
    · exact Or.inl (isDigit_of_mem_number first)
    · rcases List.mem_cons.mp rest with comma | count
      · exact Or.inr comma
      · exact Or.inl (isDigit_of_mem_number count)

theorem readExtent?_rangeText (start stop : Nat) :
    readExtent? (rangeText start stop).toList = some ⟨start, stop - start⟩ := by
  have plain : ∀ n : Nat, ',' ∉ n.repr.toList := fun n comma => by
    simpa using isDigit_of_mem_number comma
  rw [toList_rangeText]
  by_cases single : stop - start = 1
  · rw [if_pos single, readExtent?, List.splitOn_eq_singleton (plain _)]
    simp only [readNumber?_repr, Option.map_some, Nat.add_sub_cancel, single]
  · rw [if_neg single, readExtent?, List.splitOn_append_cons_self,
      List.splitOn_eq_singleton (plain _), List.splitOn_eq_singleton (plain _)]
    simp only [List.singleton_append, readNumber?_repr, Option.bind_eq_bind, Option.bind_some]
    by_cases empty : stop - start = 0 <;> simp [empty]

theorem Hunk.toList_header (hunk : Hunk) :
    hunk.header.toList = ['@', '@'] ++ ' ' :: (('-' :: hunk.old.text.toList)
      ++ ' ' :: (('+' :: hunk.new.text.toList) ++ ' ' :: ['@', '@', '\n'])) := by
  simp [Hunk.header, toString]

theorem readHeader?_header (hunk : Hunk) :
    readHeader? hunk.header = some (hunk.old, hunk.new) := by
  have plain : ∀ extent : Extent, ∀ sign ≠ ' ', ' ' ∉ sign :: extent.text.toList := by
    intro extent sign other blank
    rcases List.mem_cons.mp blank with same | inside
    · exact other same.symm
    · simpa using mem_rangeText inside
  rw [readHeader?, hunk.toList_header, List.splitOn_append_cons_self, List.splitOn_append_cons_self,
    List.splitOn_append_cons_self, List.splitOn_eq_singleton (plain _ _ (by decide)),
    List.splitOn_eq_singleton (plain _ _ (by decide)), List.splitOn_eq_singleton (by decide),
    List.splitOn_eq_singleton (by decide)]
  simp [Extent.text, readExtent?_rangeText]

theorem readMarked?_header (hunk : Hunk) : readMarked? hunk.header = none := by
  rw [readMarked?, hunk.toList_header]
  rfl

theorem readMarked?_sign (mark : Mark) (line : String) :
    readMarked? (mark.sign ++ line) = some (mark, line) := by
  cases mark <;> simp [readMarked?, Mark.sign, Mark.ofSign?]

theorem readBelow?_entries {rest : List String} {later : List (Mark × String)} {hunks : List Hunk}
    (read : readBelow? rest = some (later, hunks)) (entries : List (Mark × String)) :
    readBelow? (entries.map (fun entry => entry.1.sign ++ entry.2) ++ rest)
      = some (entries ++ later, hunks) := by
  induction entries with
  | nil => exact read
  | cons entry entries ih =>
      rw [List.map_cons, List.cons_append, readBelow?, ih, Option.bind_eq_bind, Option.bind_some]
      simp [readMarked?_sign]

/-- Hunks are read as they were written. -/
theorem read?_plainLines (hunks : List Hunk) : read? (hunks.flatMap Hunk.plainLines) = some hunks := by
  have below : readBelow? (hunks.flatMap Hunk.plainLines) = some ([], hunks) := by
    induction hunks with
    | nil => rfl
    | cons hunk hunks ih =>
        rw [List.flatMap_cons, Hunk.plainLines, List.cons_append, readBelow?,
          readBelow?_entries ih, Option.bind_eq_bind, Option.bind_some]
        simp [readMarked?_header, readHeader?_header]
  rw [read?, below]

/-- A line that is neither a header nor an entry is no part of a patch. -/
theorem read?_stray {lines : List String} {stray : String} (member : stray ∈ lines)
    (unmarked : readMarked? stray = none) (untitled : readHeader? stray = none) :
    read? lines = none := by
  have below : readBelow? lines = none := by
    induction lines with
    | nil => cases member
    | cons line rest ih =>
        rw [readBelow?]
        rcases List.mem_cons.mp member with rfl | later
        · rw [unmarked, untitled]
          cases readBelow? rest <;> rfl
        · rw [ih later]
          rfl
  rw [read?, below]

/-- The lines that are left, with hunks in place of the lines that they take out, when so many old lines
and so many new ones are behind. A hunk whose lines do not stand where it says is refused. -/
def patchedFrom? : Nat → Nat → List String → List Hunk → Option (List String)
  | _, _, left, [] => some left
  | before, after, left, hunk :: hunks =>
      let gap := hunk.old.start - before
      let there := left.drop gap
      if before ≤ hunk.old.start ∧ gap ≤ left.length ∧ after + gap = hunk.new.start
          ∧ oldSide hunk.entries <+: there then
        (patchedFrom? (hunk.old.start + hunk.old.count) (hunk.new.start + hunk.new.count)
          (there.drop hunk.old.count) hunks).map (left.take gap ++ newSide hunk.entries ++ ·)
      else none

def patched? (hunks : List Hunk) (lines : List String) : Option (List String) :=
  patchedFrom? 0 0 lines hunks

/-- Hunks that lead from one list of lines to another, when so many of the one and so many of the other
are behind: what stands before, between and behind the hunks is the same in both, and each hunk says
where its lines stand and how many they are. -/
inductive Leads : Nat → Nat → List String → List String → List Hunk → Prop
  | same {before after : Nat} (lines : List String) : Leads before after lines lines []
  | hunk {before after : Nat} {old new : List String} {hunks : List Hunk} (gap : List String)
      (entries : List (Mark × String))
      (later : Leads (before + gap.length + (oldSide entries).length)
        (after + gap.length + (newSide entries).length) old new hunks) :
      Leads before after (gap ++ oldSide entries ++ old) (gap ++ newSide entries ++ new)
        (⟨⟨before + gap.length, (oldSide entries).length⟩,
          ⟨after + gap.length, (newSide entries).length⟩, entries⟩ :: hunks)

variable {before after : Nat} {old new : List String} {hunks : List Hunk}

theorem patchedFrom?_of_leads (leads : Leads before after old new hunks) :
    patchedFrom? before after old hunks = some new := by
  induction leads with
  | same lines => rfl
  | @hunk before after old new hunks gap entries later ih =>
      simp [patchedFrom?, ih]

theorem patched?_of_leads (leads : Leads 0 0 old new hunks) : patched? hunks old = some new :=
  patchedFrom?_of_leads leads

/-- Each hunk has as many lines on either side as it says. -/
theorem Leads.counts (leads : Leads before after old new hunks) :
    ∀ hunk ∈ hunks, hunk.old.count = (oldSide hunk.entries).length
      ∧ hunk.new.count = (newSide hunk.entries).length := by
  induction leads with
  | same lines => exact nofun
  | hunk gap entries later ih => exact List.forall_mem_cons.mpr ⟨⟨rfl, rfl⟩, ih⟩

theorem mem_sides {entries : List (Mark × String)} {entry : Mark × String}
    (member : entry ∈ entries) : entry.2 ∈ oldSide entries ∨ entry.2 ∈ newSide entries := by
  obtain ⟨mark, line⟩ := entry
  cases mark with
  | kept | deleted => exact Or.inl (List.mem_map.mpr ⟨_, List.mem_filter.mpr ⟨member, rfl⟩, rfl⟩)
  | inserted => exact Or.inr (List.mem_map.mpr ⟨_, List.mem_filter.mpr ⟨member, rfl⟩, rfl⟩)

/-- The lines of entries are lines of the old text or of the new one. -/
theorem Leads.mem (leads : Leads before after old new hunks) :
    ∀ hunk ∈ hunks, ∀ entry ∈ hunk.entries, entry.2 ∈ old ∨ entry.2 ∈ new := by
  induction leads with
  | same lines => exact nofun
  | @hunk before after old new hunks gap entries later ih =>
      refine List.forall_mem_cons.mpr ⟨?_, ?_⟩
      · intro entry member
        rcases mem_sides member with inOld | inNew
        · exact Or.inl (List.mem_append_left _ (List.mem_append_right _ inOld))
        · exact Or.inr (List.mem_append_left _ (List.mem_append_right _ inNew))
      · intro hunk member entry among
        rcases ih hunk member entry among with inOld | inNew
        · exact Or.inl (List.mem_append_right _ inOld)
        · exact Or.inr (List.mem_append_right _ inNew)

end Codemod.Diff
