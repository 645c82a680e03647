import Codemod.Text.Blank
import Codemod.Text.Indent
import Codemod.Text.Splice

/-!
Texts without their blanks. The indentation of a line has nothing but blanks in it, and splicing
texts that differ in nothing but their blanks gives texts that differ in nothing else.
-/

namespace Codemod

section

variable {ε α β γ δ : Type}

def Agree (view : α → γ) (first second : Except ε α) : Prop :=
  first.map view = second.map view

theorem agree_refl (view : α → γ) (step : Except ε α) : Agree view step step :=
  rfl

theorem agree_pure {view : α → γ} {value other : α} (same : view value = view other) :
    Agree (ε := ε) view (pure value) (pure other) :=
  congrArg Except.ok same

theorem Agree.cases {view : α → γ} {first second : Except ε α} (agree : Agree view first second) :
    (∃ error, first = .error error ∧ second = .error error)
      ∨ ∃ value other, first = .ok value ∧ second = .ok other ∧ view value = view other := by
  cases first with
  | error error =>
      cases second with
      | error reason =>
          cases agree
          exact Or.inl ⟨error, rfl, rfl⟩
      | ok other => cases agree
  | ok value =>
      cases second with
      | error reason => cases agree
      | ok other => exact Or.inr ⟨value, other, rfl, rfl, Except.ok.inj agree⟩

theorem agree_bind {view : α → γ} {seen : β → δ} {first second : Except ε α}
    {next later : α → Except ε β} (steps : Agree view first second)
    (nexts : ∀ value other, view value = view other → Agree seen (next value) (later other)) :
    Agree seen (first >>= next) (second >>= later) := by
  rcases steps.cases with ⟨error, rfl, rfl⟩ | ⟨value, other, rfl, rfl, same⟩
  · exact agree_refl seen (.error error)
  · exact nexts value other same

theorem agree_mapM {view : β → γ} {step other : α → Except ε β} (values : List α)
    (steps : ∀ value, Agree view (step value) (other value)) :
    Agree (List.map view) (values.mapM step) (values.mapM other) := by
  induction values with
  | nil => exact agree_refl ..
  | cons value rest ih =>
      rw [List.mapM_cons, List.mapM_cons]
      refine agree_bind (steps value) fun first second same => ?_
      refine agree_bind ih fun firsts seconds sames => agree_pure ?_
      rw [List.map_cons, List.map_cons, same, sames]

end

namespace Text

def ink (text : String) : List Char :=
  text.toList.filter fun c => !isBlank c

@[simp] theorem ink_empty : ink "" = [] := rfl

@[simp] theorem ink_append (front back : String) : ink (front ++ back) = ink front ++ ink back := by
  simp [ink]

theorem ink_join (parts : List String) : ink (String.join parts) = (parts.map ink).flatten := by
  induction parts with
  | nil => simp
  | cons part rest ih => simp [ih]

theorem ink_intercalate (gap : String) {parts others : List String}
    (same : parts.map ink = others.map ink) :
    ink (gap.intercalate parts) = ink (gap.intercalate others) := by
  induction parts generalizing others with
  | nil => simp_all
  | cons part rest ih =>
      obtain ⟨other, remaining, rfl, heads, tails⟩ := List.map_eq_cons_iff.mp same.symm
      cases rest with
      | nil => simp_all
      | cons second rest =>
          obtain ⟨next, left, rfl, _, _⟩ := List.map_eq_cons_iff.mp tails
          simp [ih tails.symm, heads]

theorem ink_eq_nil_iff {text : String} : ink text = [] ↔ allBlank text = true := by
  simp [ink, allBlank]

/-- No byte that goes on with a character is a blank or a tab. -/
theorem continuation_ne (byte : UInt8) :
    ¬ (byte ||| 0x80 = byteOf ' ' ∨ byte ||| 0x80 = byteOf '\t') := by
  rintro (same | same) <;>
    · have bit := congrArg (fun byte : UInt8 => byte.toBitVec.getLsbD 7) same
      simp [byteOf] at bit

theorem isBlank_of_bytes {c : Char}
    (bytes : ∀ byte ∈ String.utf8EncodeChar c, byte = byteOf ' ' ∨ byte = byteOf '\t') :
    isBlank c = true := by
  have last := continuation_ne (c.val.toUInt8 &&& 0x3f)
  rcases c.utf8Size_eq with size | size | size | size
  · rw [String.utf8EncodeChar_eq_singleton size] at bytes
    have small : c.toNat ≤ 127 := UInt32.le_iff_toNat_le.mp (Char.utf8Size_eq_one_iff.mp size)
    have byte : c.val.toUInt8.toNat = c.toNat := by
      rw [UInt32.toNat_toUInt8]
      exact Nat.mod_eq_of_lt (Nat.lt_of_le_of_lt small (by decide))
    have code : c.toNat = 32 ∨ c.toNat = 9 := by
      rw [← byte]
      exact (bytes _ List.mem_cons_self).imp (congrArg UInt8.toNat) (congrArg UInt8.toNat)
    rcases code with code | code <;> simp [isBlank, code]
  · rw [String.utf8EncodeChar_eq_cons_cons size] at bytes
    exact absurd (bytes _ (by simp)) last
  · rw [String.utf8EncodeChar_eq_cons_cons_cons size] at bytes
    exact absurd (bytes _ (by simp)) last
  · rw [String.utf8EncodeChar_eq_cons_cons_cons_cons size] at bytes
    exact absurd (bytes _ (by simp)) last

theorem ink_of_bytes {text : String}
    (bytes : ∀ byte ∈ text.toByteArray.data, byte = byteOf ' ' ∨ byte = byteOf '\t') :
    ink text = [] := by
  rw [ink_eq_nil_iff, allBlank, List.all_eq_true]
  intro c member
  refine isBlank_of_bytes fun byte held => bytes byte ?_
  have encoded : text.toByteArray = text.toList.utf8Encode := by
    rw [← String.toByteArray_ofList, String.ofList_toList]
  rw [encoded, List.utf8Encode, List.data_toByteArray]
  exact List.mem_toArray.mpr (List.mem_flatMap.mpr ⟨c, member, held⟩)

theorem byteAt?_middle (front text back : String) {i : Nat} (inside : i < text.toByteArray.size) :
    byteAt? (front ++ text ++ back) (front.utf8ByteSize + i) = some text.toByteArray[i] := by
  have size : text.toByteArray.size = text.utf8ByteSize := String.size_toByteArray
  have before : front.toByteArray.size = front.utf8ByteSize := String.size_toByteArray
  have within : (⟨front.utf8ByteSize + i⟩ : String.Pos.Raw) < (front ++ text ++ back).rawEndPos := by
    simp [String.Pos.Raw.lt_iff]
    omega
  rw [byteAt?, dif_pos within]
  simp only [String.getUTF8Byte, String.toByteArray_append]
  rw [ByteArray.getElem_append_left (by simp; omega), ByteArray.getElem_append_right (by omega)]
  simp [before]

theorem byteAt?_blanksEnd {source : String} {left start offset : Nat} (after : start ≤ offset)
    (before : offset < blanksEnd source left start) :
    byteAt? source offset = some (byteOf ' ') ∨ byteAt? source offset = some (byteOf '\t') := by
  induction left generalizing start with
  | zero => exact absurd before (Nat.not_lt.mpr after)
  | succ left ih =>
      rw [blanksEnd] at before
      split at before
      · next blank =>
          rcases Nat.eq_or_lt_of_le after with rfl | further
          · exact blank
          · exact ih further before
      · exact absurd before (Nat.not_lt.mpr after)

@[simp] theorem ink_lineIndent (source : String) (offset : Nat) :
    ink (lineIndent source offset) = [] := by
  unfold lineIndent
  generalize (if (boundary? source offset).isSome then lineStart source offset else 0) = start
  dsimp only
  rw [slice]
  cases found : slice? source start (blanksEnd source source.utf8ByteSize start) with
  | none => rfl
  | some text =>
      obtain ⟨front, back, parts, atStart, atStop⟩ := slice?_eq_some_iff.mp found
      refine ink_of_bytes fun byte member => ?_
      obtain ⟨i, inside, rfl⟩ := Array.mem_iff_getElem.mp member
      have before : start + i < blanksEnd source source.utf8ByteSize start := by
        rw [← atStop]
        exact Nat.add_lt_add_left inside start
      have blank := byteAt?_blanksEnd (Nat.le_add_right start i) before
      have read : byteAt? source (start + i) = some text.toByteArray.data[i] := by
        rw [parts, ← atStart]
        exact byteAt?_middle front text back inside
      rw [read] at blank
      exact blank.imp Option.some.inj Option.some.inj

end Text

def Replacement.ink (edit : Replacement) : Span × List Char :=
  (edit.span, Text.ink edit.text)

namespace Text

variable {source : String} {window : Span}

theorem fill_agree {edits others : List Replacement}
    (same : edits.map Replacement.ink = others.map Replacement.ink) (cursor : Nat) :
    Agree ink (fill source window edits cursor) (fill source window others cursor) := by
  induction edits generalizing others cursor with
  | nil =>
      cases List.map_eq_nil_iff.mp same.symm
      exact agree_refl ..
  | cons edit rest ih =>
      obtain ⟨other, remaining, rfl, head, tail⟩ := List.map_eq_cons_iff.mp same.symm
      obtain ⟨spans, texts⟩ : other.span = edit.span ∧ ink other.text = ink edit.text :=
        Prod.mk.inj head
      unfold fill
      rw [spans]
      split
      · exact agree_refl ..
      · split
        · exact agree_refl ..
        · refine agree_bind (agree_refl id _) fun before former gaps => ?_
          refine agree_bind (ih tail.symm edit.span.stop) fun after later inks => agree_pure ?_
          rw [show before = former from gaps]
          simp [texts, inks]

theorem splice_agree {edits others : List Replacement}
    (same : edits.map Replacement.ink = others.map Replacement.ink) :
    Agree ink (splice source window edits) (splice source window others) := by
  unfold splice
  split
  · exact agree_refl ..
  · refine fill_agree ?_ window.start
    let ordered (first second : Span × List Char) : Bool := decide (first.1.start ≤ second.1.start)
    have sorted (list : List Replacement) :
        (list.mergeSort fun a b => decide (a.span.start ≤ b.span.start)).map Replacement.ink
          = (list.map Replacement.ink).mergeSort ordered :=
      List.map_mergeSort fun _ _ _ _ => rfl
    rw [sorted, sorted, same]

end Text

end Codemod
