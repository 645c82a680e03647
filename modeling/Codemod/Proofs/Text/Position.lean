import Codemod.Text.Position
import Codemod.Text.Slice
import Mathlib.Data.List.DropRight
import Mathlib.Data.Prod.Lex
import Mathlib.Order.Monotone.Basic

/-!
Lines and columns of offsets. Every character that is read moves the place onwards, so two boundaries
never have one place. Main statement: the place of a boundary counts the line feeds before it and the
characters behind the last of them, and an offset inside a character has the place of its end
(`ofOffset_faithful`).
-/

namespace Codemod.Position

def place (p : Position) : ℕ ×ₗ ℕ :=
  toLex (p.line, p.column)

def next (here : ℕ ×ₗ ℕ) (c : Char) : ℕ ×ₗ ℕ :=
  if c = '\n' then toLex ((ofLex here).1 + 1, 1) else toLex ((ofLex here).1, (ofLex here).2 + 1)

def placeAfter (cs : List Char) : ℕ ×ₗ ℕ :=
  cs.foldl next (toLex (1, 1))

theorem lt_next (here : ℕ ×ₗ ℕ) (c : Char) : here < next here c := by
  rw [Prod.Lex.lt_iff, next]
  split
  · exact Or.inl (Nat.lt_succ_self _)
  · exact Or.inr ⟨rfl, Nat.lt_succ_self _⟩

theorem le_foldl_next (cs : List Char) (here : ℕ ×ₗ ℕ) : here ≤ cs.foldl next here := by
  induction cs generalizing here with
  | nil => exact le_refl _
  | cons c cs ih => exact le_trans (lt_next here c).le (ih _)

/-- What is longer ends further on. -/
theorem placeAfter_lt (front : List Char) (c : Char) (more : List Char) :
    placeAfter front < placeAfter (front ++ c :: more) := by
  rw [placeAfter, placeAfter, List.foldl_append, List.foldl_cons]
  exact lt_of_lt_of_le (lt_next _ c) (le_foldl_next more _)

/-- The line counts the line feeds, the column what stands behind the last of them. -/
theorem placeAfter_eq (cs : List Char) :
    placeAfter cs = toLex (cs.count '\n' + 1, (cs.rtakeWhile (· ≠ '\n')).length + 1) := by
  induction cs using List.reverseRecOn with
  | nil => rfl
  | append_singleton cs c ih =>
      rw [placeAfter, List.foldl_append, List.foldl_cons, List.foldl_nil, ← placeAfter, ih, next]
      by_cases ends : c = '\n' <;> simp [ends]

/-- Nothing is read from the offset on. -/
theorem scan_reached {offset here : Nat} (reached : offset ≤ here) (cs : List Char)
    (line column : Nat) : scan offset cs here line column = ⟨line, column, offset⟩ := by
  cases cs with
  | nil => rfl
  | cons c cs => rw [scan, if_pos reached]

/-- A character that starts before the offset is read. -/
theorem scan_cons {offset here : Nat} (before : here < offset) (c : Char) (cs : List Char)
    (line column : Nat) :
    scan offset (c :: cs) here line column
      = scan offset cs (here + c.utf8Size) (ofLex (next (toLex (line, column)) c)).1
        (ofLex (next (toLex (line, column)) c)).2 := by
  rw [scan, if_neg (Nat.not_le.mpr before), next]
  by_cases ends : c = '\n' <;> simp [ends]

theorem scan_append {offset here : Nat} (front back : List Char)
    (before : here + Text.byteLength front ≤ offset) (line column : Nat) :
    scan offset (front ++ back) here line column
      = scan offset back (here + Text.byteLength front)
        (ofLex (front.foldl next (toLex (line, column)))).1
        (ofLex (front.foldl next (toLex (line, column)))).2 := by
  induction front generalizing here line column with
  | nil => rfl
  | cons c front ih =>
      have size := c.utf8Size_pos
      rw [Text.byteLength_cons] at before ⊢
      rw [List.cons_append, scan_cons (by omega), ih (by omega), Nat.add_assoc]
      rfl

variable {source : String} {front back : List Char} {offset : Nat}

/-- A boundary has the place behind what stands before it. -/
theorem place_boundary (parts : source.toList = front ++ back)
    (here : Text.byteLength front = offset) :
    (ofOffset source offset).place = placeAfter front := by
  subst here
  rw [ofOffset, parts, scan_append front back (Nat.zero_add _).le, scan_reached (Nat.zero_add _).ge]
  rfl

/-- Inside a character one stands at its end. -/
theorem place_inside {c : Char} (parts : source.toList = front ++ c :: back)
    (starts : Text.byteLength front < offset)
    (ends : offset ≤ Text.byteLength front + c.utf8Size) :
    (ofOffset source offset).place = placeAfter (front ++ [c]) := by
  rw [ofOffset, parts, scan_append front (c :: back) (by omega), scan_cons (by omega),
    scan_reached (by omega), placeAfter, List.foldl_append]
  rfl

/-- What stands before and behind a boundary. -/
theorem parts_of_isValid (valid : (String.Pos.Raw.mk offset).IsValid source) :
    ∃ front back, source.toList = front ++ back ∧ Text.byteLength front = offset := by
  obtain ⟨front, back, rfl, same⟩ := String.Pos.Raw.isValid_iff_exists_append.mp valid
  refine ⟨front.toList, back.toList, String.toList_append, ?_⟩
  rw [Text.byteLength_toList]
  exact (congrArg String.Pos.Raw.byteIdx same).symm

/-- Boundaries further on have places further on. -/
theorem place_lt {first second : Nat} (valid : (String.Pos.Raw.mk first).IsValid source)
    (also : (String.Pos.Raw.mk second).IsValid source) (ordered : first < second) :
    (ofOffset source first).place < (ofOffset source second).place := by
  obtain ⟨front, back, parts, rfl⟩ := parts_of_isValid valid
  obtain ⟨long, rest, same, rfl⟩ := parts_of_isValid also
  rw [place_boundary parts rfl, place_boundary same rfl]
  -- Of two starts of one text the one with fewer bytes is a start of the other.
  rcases List.append_eq_append_iff.mp (parts.symm.trans same) with ⟨more, rfl, _⟩ | ⟨more, rfl, _⟩
  · cases more with
    | nil => simp at ordered
    | cons c more => exact placeAfter_lt front c more
  · rw [Text.byteLength_append] at ordered
    omega

/-- Places of boundaries are in the order of the boundaries and tell them apart. The line of one is one
more than the line feeds before it, its column one more than the characters since the last of them, and
an offset inside a character has the place of the next boundary. -/
theorem ofOffset_faithful (source : String) :
    StrictMonoOn (fun offset => (ofOffset source offset).place)
        {offset | (String.Pos.Raw.mk offset).IsValid source}
      ∧ Set.InjOn (fun offset => ((ofOffset source offset).line, (ofOffset source offset).column))
        {offset | (String.Pos.Raw.mk offset).IsValid source}
      ∧ (∀ front back, source = front ++ back →
        (ofOffset source front.utf8ByteSize).line = front.toList.count '\n' + 1
          ∧ (ofOffset source front.utf8ByteSize).column
            = (front.toList.rtakeWhile (· ≠ '\n')).length + 1)
      ∧ ∀ front c back offset, source = front ++ String.singleton c ++ back →
        front.utf8ByteSize < offset → offset < front.utf8ByteSize + c.utf8Size →
        (ofOffset source offset).line = (ofOffset source (front.utf8ByteSize + c.utf8Size)).line
          ∧ (ofOffset source offset).column
            = (ofOffset source (front.utf8ByteSize + c.utf8Size)).column := by
  have mono : StrictMonoOn (fun offset => (ofOffset source offset).place)
      {offset | (String.Pos.Raw.mk offset).IsValid source} :=
    fun _ valid _ also ordered => place_lt valid also ordered
  refine ⟨mono, ?_, ?_, ?_⟩
  · intro first valid second also same
    exact mono.injOn valid also (congrArg toLex same)
  · rintro front back rfl
    have parts : (front ++ back).toList = front.toList ++ back.toList := String.toList_append
    have counted := (place_boundary parts (Text.byteLength_toList front)).trans
      (placeAfter_eq front.toList)
    exact Prod.mk.inj (toLex_inj.mp counted)
  · rintro front c back offset rfl starts ends
    have parts : (front ++ String.singleton c ++ back).toList
        = front.toList ++ c :: back.toList := by simp
    rw [← Text.byteLength_toList] at starts ends ⊢
    have inside := place_inside parts starts ends.le
    have behind := place_inside parts (starts.trans ends) le_rfl
    exact Prod.mk.inj (toLex_inj.mp (inside.trans behind.symm))

/-- In `é`, two line feeds and `ü` the offset 1 lies inside the first character, and the places of the
boundaries behind it and behind the line feeds are one after the other. -/
theorem ofOffset_faithful_accents :
    (ofOffset "é\n\nü" 1).column = 2 ∧ (ofOffset "é\n\nü" 2).place < (ofOffset "é\n\nü" 3).place
      ∧ (ofOffset "é\n\nü" 4).line = 3 ∧ (ofOffset "é\n\nü" 4).column = 1 := by
  obtain ⟨ordered, _, counted, inside⟩ := ofOffset_faithful "é\n\nü"
  have second : (String.Pos.Raw.mk 2).IsValid "é\n\nü" := by decide +kernel
  have third : (String.Pos.Raw.mk 3).IsValid "é\n\nü" := by decide +kernel
  have behind := counted "é" "\n\nü" (by decide +kernel)
  have within := inside "" 'é' "\n\nü" 1 (by decide +kernel) (by decide) (by decide)
  exact ⟨within.2.trans behind.2, ordered second third (by decide),
    counted "é\n\n" "ü" (by decide +kernel)⟩

end Codemod.Position
