import Codemod.Diff.Unified

/-!
Texts line by line. A line is some characters that end no line and behind them its end, which only the
last line of a text may lack. A text that begins with a line that has an end is that line and the lines
of what follows, unless the first half of one end and the second half of another come together.
-/

namespace Codemod.Diff

def Inner (c : Char) : Prop :=
  c ≠ '\n' ∧ c ≠ '\r'

instance (c : Char) : Decidable (Inner c) :=
  inferInstanceAs (Decidable (c ≠ '\n' ∧ c ≠ '\r'))

inductive LineEnd : List Char → Prop
  | lineFeed : LineEnd ['\n']
  | carriageReturn : LineEnd ['\r']
  | both : LineEnd ['\r', '\n']

inductive Ended : List Char → Prop
  | intro (inside : List Char) {stop : List Char} (inner : ∀ c ∈ inside, Inner c)
      (ending : LineEnd stop) : Ended (inside ++ stop)

structure Unended (line : List Char) : Prop where
  nonempty : line ≠ []
  inner : ∀ c ∈ line, Inner c

variable {line rest : List Char} {c : Char}

theorem Ended.cons (inner : Inner c) (ended : Ended line) : Ended (c :: line) := by
  obtain ⟨inside, before, ending⟩ := ended
  exact .intro (c :: inside) (List.forall_mem_cons.mpr ⟨inner, before⟩) ending

theorem splitLines_inner (inner : Inner c) (cs : List Char) :
    splitLines (c :: cs) = consLine c (splitLines cs) := by
  rw [splitLines, if_neg (not_or.mpr inner)]
  exact fun _ return_ => absurd return_ inner.2

theorem splitLines_ending {stop : List Char} (ending : LineEnd stop)
    (apart : stop.getLast? = some '\n' ∨ rest.head? ≠ some '\n') :
    splitLines (stop ++ rest) = stop :: splitLines rest := by
  cases ending with
  | lineFeed => rw [List.singleton_append, splitLines] <;> simp
  | both => rfl
  | carriageReturn =>
      rw [List.singleton_append, splitLines]
      · simp
      · rintro cs - rfl
        simp at apart

/-- A line with its end, and the lines of what follows. -/
theorem splitLines_ended (ended : Ended line)
    (apart : line.getLast? = some '\n' ∨ rest.head? ≠ some '\n') :
    splitLines (line ++ rest) = line :: splitLines rest := by
  obtain @⟨inside, stop, inner, ending⟩ := ended
  have still : stop.getLast? = some '\n' ∨ rest.head? ≠ some '\n' := by
    cases ending with
    | lineFeed | both => exact Or.inl rfl
    | carriageReturn => simpa using apart
  clear apart
  induction inside with
  | nil => exact splitLines_ending ending still
  | cons c inside ih =>
      obtain ⟨first, others⟩ := List.forall_mem_cons.mp inner
      have below := ih others
      rw [List.cons_append, List.cons_append, splitLines_inner first, below, consLine]

theorem mem_splitLines {cs : List Char} (member : line ∈ splitLines cs) :
    Ended line ∨ Unended line := by
  fun_induction splitLines cs generalizing line with
  | case1 => cases member
  | case2 cs ih =>
      rcases List.mem_cons.mp member with rfl | later
      · exact Or.inl (.intro [] (List.forall_mem_nil _) .both)
      · exact ih later
  | case3 c cs _ ends ih =>
      rcases List.mem_cons.mp member with rfl | later
      · rcases ends with rfl | rfl
        · exact Or.inl (.intro [] (List.forall_mem_nil _) .lineFeed)
        · exact Or.inl (.intro [] (List.forall_mem_nil _) .carriageReturn)
      · exact ih later
  | case4 c cs _ ends ih =>
      have inner : Inner c := not_or.mp ends
      cases parts : splitLines cs with
      | nil =>
          rw [parts, consLine] at member
          cases List.mem_singleton.mp member
          exact Or.inr ⟨List.cons_ne_nil _ _, by simpa using inner⟩
      | cons first others =>
          rw [parts] at member ih
          rcases List.mem_cons.mp member with rfl | later
          · rcases ih List.mem_cons_self with ended | unended
            · exact Or.inl (ended.cons inner)
            · exact Or.inr ⟨List.cons_ne_nil _ _,
                List.forall_mem_cons.mpr ⟨inner, unended.inner⟩⟩
          · exact ih (List.mem_cons_of_mem _ later)

theorem isTerminated_of_ended {text : String} (ended : Ended text.toList) :
    isTerminated text = true := by
  generalize whole : text.toList = cs at ended
  obtain ⟨_, _, ending⟩ := ended
  rw [isTerminated, whole]
  cases ending <;> simp

theorem isTerminated_of_unended {text : String} (unended : Unended text.toList) :
    isTerminated text = false := by
  have last := List.getLast?_eq_some_getLast unended.nonempty
  have inner := unended.inner _ (List.getLast_mem unended.nonempty)
  rw [isTerminated, last]
  simp [inner.1, inner.2]

/-- One line, with an end or without, as is seen at its last character. -/
inductive IsLine (line : String) : Prop
  | terminated (found : isTerminated line = true) (ended : Ended line.toList)
  | unterminated (found : isTerminated line = false) (unended : Unended line.toList)

theorem isLine_of_mem_lines {text line : String} (member : line ∈ lines text) : IsLine line := by
  obtain ⟨cs, among, rfl⟩ := List.mem_map.mp member
  have whole : (String.ofList cs).toList = cs := String.toList_ofList
  rcases mem_splitLines among with ended | unended
  · rw [← whole] at ended
    exact .terminated (isTerminated_of_ended ended) ended
  · rw [← whole] at unended
    exact .unterminated (isTerminated_of_unended unended) unended

theorem lines_ended {line rest : String} (ended : Ended line.toList)
    (apart : line.toList.getLast? = some '\n' ∨ rest.toList.head? ≠ some '\n') :
    lines (line ++ rest) = line :: lines rest := by
  rw [lines, String.toList_append, splitLines_ended ended apart, List.map_cons, String.ofList_toList,
    lines]

/-- Lines that follow one another are the text. -/
theorem join_lines (text : String) : String.join (lines text) = text := by
  rw [← String.toList_inj, String.toList_join, lines, List.flatMap_map]
  simpa [Function.comp_def, List.flatMap_def] using flatten_splitLines text.toList

end Codemod.Diff
