/-!
Byte offsets into a text. Offsets count UTF-8 bytes; one that falls inside a character addresses
nothing, so no slice starts or ends there. Main statement: a slice is a part of the text with the
right number of bytes before it and in it.
-/

namespace Codemod.Text

def byteLength : List Char → Nat
  | [] => 0
  | c :: cs => c.utf8Size + byteLength cs

@[simp] theorem byteLength_nil : byteLength [] = 0 := rfl

@[simp] theorem byteLength_cons (c : Char) (cs : List Char) :
    byteLength (c :: cs) = c.utf8Size + byteLength cs := rfl

@[simp] theorem byteLength_append (front back : List Char) :
    byteLength (front ++ back) = byteLength front + byteLength back := by
  induction front with
  | nil => simp
  | cons c cs ih => simp [ih, Nat.add_assoc]

theorem byteLength_toList (text : String) : byteLength text.toList = text.utf8ByteSize := by
  induction text using String.push_induction with
  | empty => simp
  | push text c ih => simp [ih]

-- The place at a byte offset, if a character starts there or the text ends.
def boundary? (source : String) (offset : Nat) : Option source.Pos :=
  if valid : (String.Pos.Raw.mk offset).IsValid source then some ⟨⟨offset⟩, valid⟩ else none

def slice? (source : String) (start stop : Nat) : Option String :=
  if start ≤ stop then do
    let first ← boundary? source start
    let last ← boundary? source stop
    return source.extract first last
  else none

-- The text between two byte offsets, empty when they address none.
def slice (source : String) (start stop : Nat) : String :=
  (slice? source start stop).getD ""

/-- A text has a boundary where a part at its front ends. -/
theorem boundary?_of_append {source front back : String} (parts : source = front ++ back) :
    ∃ place, boundary? source front.utf8ByteSize = some place
      ∧ place.offset.byteIdx = front.utf8ByteSize := by
  have valid : (String.Pos.Raw.mk front.utf8ByteSize).IsValid source :=
    String.Pos.Raw.isValid_iff_exists_append.mpr ⟨front, back, parts, rfl⟩
  exact ⟨⟨_, valid⟩, dif_pos valid, rfl⟩

/-- A boundary lies where it was asked for. -/
theorem offset_of_boundary? {source : String} {offset : Nat} {place : source.Pos}
    (found : boundary? source offset = some place) : place.offset.byteIdx = offset := by
  unfold boundary? at found
  split at found
  · cases found
    rfl
  · cases found

theorem slice?_eq_some_iff {source text : String} {start stop : Nat} :
    slice? source start stop = some text ↔
      ∃ front back, source = front ++ text ++ back ∧ front.utf8ByteSize = start
        ∧ start + text.utf8ByteSize = stop := by
  constructor
  · intro found
    unfold slice? at found
    split at found
    · next ordered =>
      obtain ⟨first, atStart, rest⟩ := Option.bind_eq_some_iff.mp found
      obtain ⟨last, atStop, same⟩ := Option.bind_eq_some_iff.mp rest
      cases same
      have startOffset := offset_of_boundary? atStart
      have stopOffset := offset_of_boundary? atStop
      have bound : stop ≤ source.utf8ByteSize := by
        have inside := last.isValid.le_utf8ByteSize
        omega
      have size : source.toByteArray.size = source.utf8ByteSize := String.size_toByteArray
      refine ⟨source.extract source.startPos first, source.extract last source.endPos, ?_, ?_, ?_⟩
      · apply String.toByteArray_inj.mp
        simp [startOffset, stopOffset, ordered, bound]
        rw [← size, ByteArray.extract_zero_size]
      · simp [← String.size_toByteArray, startOffset]
        omega
      · simp [← String.size_toByteArray, startOffset, stopOffset]
        omega
    · cases found
  · rintro ⟨front, back, rfl, rfl, rfl⟩
    have parts : front ++ text ++ back = front ++ (text ++ back) := String.append_assoc
    obtain ⟨first, atStart, startOffset⟩ := boundary?_of_append parts
    obtain ⟨last, atStop, stopOffset⟩ :=
      boundary?_of_append (rfl : front ++ text ++ back = front ++ text ++ back)
    rw [String.utf8ByteSize_append] at atStop stopOffset
    rw [slice?, if_pos (Nat.le_add_right ..), atStart, atStop]
    refine congrArg some (String.toByteArray_inj.mp ?_)
    simp only [String.toByteArray_extract, String.toByteArray_append, startOffset, stopOffset,
      ← String.size_toByteArray, ByteArray.append_assoc]
    rw [← Nat.add_zero front.toByteArray.size, Nat.add_assoc, ByteArray.extract_append_size_add,
      Nat.zero_add, ByteArray.extract_append_eq_left rfl]

theorem slice_whole (source : String) : slice source 0 source.utf8ByteSize = source := by
  have found : slice? source 0 source.utf8ByteSize = some source :=
    slice?_eq_some_iff.mpr ⟨"", "", by simp, rfl, by simp⟩
  rw [slice, found, Option.getD_some]

end Codemod.Text
