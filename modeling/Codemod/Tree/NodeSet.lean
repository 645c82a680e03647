import Codemod.Tree.Slot

/-!
Sets of nodes. Ids are indices into an arena, so a set is a row of marks: asking and marking look
at one place each. A place beyond the row is not marked.
-/

namespace Codemod

structure NodeSet where
  marks : Array Bool := #[]
deriving DecidableEq, Repr, Inhabited

namespace NodeSet

def contains (set : NodeSet) (id : NodeId) : Bool :=
  set.marks.getD id.index false

-- The set with one more node; the row grows to its place.
def insert (set : NodeSet) (id : NodeId) : NodeSet :=
  let room := id.index + 1 - set.marks.size
  ⟨(set.marks ++ Array.replicate room false).setIfInBounds id.index true⟩

def just (id : NodeId) : NodeSet :=
  insert {} id

@[simp] theorem contains_empty (id : NodeId) : contains {} id = false := rfl

/-- Marking a node changes the answer for that node only. -/
@[simp] theorem contains_insert (set : NodeSet) (added id : NodeId) :
    (set.insert added).contains id = (decide (id = added) || set.contains id) := by
  obtain ⟨marks⟩ := set
  obtain ⟨place⟩ := added
  obtain ⟨index⟩ := id
  simp only [insert, contains, Array.getD_eq_getD_getElem?, Array.getElem?_setIfInBounds,
    Array.size_append, Array.size_replicate, NodeId.mk.injEq]
  by_cases same : place = index
  · subst same
    have fits : place < marks.size + (place + 1 - marks.size) := by omega
    simp [fits]
  · have other : ¬ index = place := fun equal => same equal.symm
    by_cases inside : index < marks.size
    · simp [same, other, Array.getElem?_append_left inside]
    · -- The marks that were added are all off.
      simp [same, other, Array.getElem?_append_right (Nat.le_of_not_lt inside),
        Array.getElem?_replicate, inside]
      split <;> rfl

theorem contains_insert_iff {set : NodeSet} {added id : NodeId} :
    (set.insert added).contains id ↔ id = added ∨ set.contains id := by
  rw [contains_insert, Bool.or_eq_true, decide_eq_true_eq]

end NodeSet

end Codemod
