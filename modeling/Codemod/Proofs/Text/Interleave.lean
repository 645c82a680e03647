import Codemod.Proofs.Text.Layout

/-!
A window of a text with other texts at some of its places. The gaps between the places are copied, so
that a place filled with the text it had makes no difference, and places inside places can be filled
one after the other or all at once. Splicing gives this text where the places are laid out in order.
-/

namespace Codemod.Text

variable {source : String}

theorem slice_eq {start stop : Nat} {first last : source.Pos}
    (atStart : boundary? source start = some first) (atStop : boundary? source stop = some last)
    (ordered : start ≤ stop) : slice source start stop = source.extract first last := by
  rw [slice, slice?, if_pos ordered, atStart, atStop]
  rfl

theorem slice_append {start middle stop : Nat} (first : (boundary? source start).isSome)
    (second : (boundary? source middle).isSome) (third : (boundary? source stop).isSome)
    (before : start ≤ middle) (after : middle ≤ stop) :
    slice source start middle ++ slice source middle stop = slice source start stop := by
  obtain ⟨front, atStart⟩ := Option.isSome_iff_exists.mp first
  obtain ⟨between, atMiddle⟩ := Option.isSome_iff_exists.mp second
  obtain ⟨back, atStop⟩ := Option.isSome_iff_exists.mp third
  rw [slice_eq atStart atMiddle before, slice_eq atMiddle atStop after,
    slice_eq atStart atStop (Nat.le_trans before after)]
  apply String.toByteArray_inj.mp
  simp only [String.toByteArray_append, String.toByteArray_extract, offset_of_boundary? atStart,
    offset_of_boundary? atMiddle, offset_of_boundary? atStop, ByteArray.extract_append_extract]
  rw [Nat.min_eq_left before, Nat.max_eq_right after]

@[simp] theorem slice_self (source : String) (offset : Nat) : slice source offset offset = "" := by
  cases found : slice? source offset offset with
  | none => rw [slice, found, Option.getD_none]
  | some text =>
      obtain ⟨_, _, _, _, size⟩ := slice?_eq_some_iff.mp found
      rw [slice, found, Option.getD_some]
      exact String.utf8ByteSize_eq_zero_iff.mp (by omega)

def interleaveFrom (source : String) (stop : Nat) : List Replacement → Nat → String
  | [], cursor => slice source cursor stop
  | edit :: rest, cursor =>
      slice source cursor edit.span.start ++ edit.text
        ++ interleaveFrom source stop rest edit.span.stop

/-- The text of a window with each place filled, in the order of the places. -/
def interleave (source : String) (window : Span) (edits : List Replacement) : String :=
  interleaveFrom source window.stop edits window.start

/-- The cursor stands between characters, before all places and before the end of the window. -/
structure Ahead (source : String) (cursor stop : Nat) (edits : List Replacement) : Prop where
  standing : (boundary? source cursor).isSome
  inside : cursor ≤ stop
  before : ∀ edit ∈ edits, cursor ≤ edit.span.start

theorem Laid.ahead {window : Span} {edits : List Replacement}
    (laid : Laid source window (edits.map Replacement.span)) :
    Ahead source window.start window.stop edits where
  standing := laid.around.start
  inside := laid.around.ordered
  before edit member := (laid.inside edit.span (List.mem_map_of_mem member)).1

section

variable {window : Span} {edit : Replacement} {rest : List Replacement}
variable (laid : Laid source window ((edit :: rest).map Replacement.span))

include laid

theorem Laid.tail : Laid source window (rest.map Replacement.span) :=
  laid.sublist (List.sublist_cons_self ..)

theorem Laid.head : edit.span.Bounded source ∧ window.start ≤ edit.span.start
    ∧ edit.span.stop ≤ window.stop :=
  ⟨laid.bounded edit.span List.mem_cons_self, laid.inside edit.span List.mem_cons_self⟩

theorem Laid.aheadTail : Ahead source edit.span.stop window.stop rest where
  standing := laid.head.1.stop
  inside := laid.head.2.2
  before other member :=
    (List.pairwise_cons.mp laid.ordered).1 other.span (List.mem_map_of_mem member)

end

theorem gap_eq {window : Span} {start stop : Nat} (ordered : start ≤ stop)
    (first : (boundary? source start).isSome) (last : (boundary? source stop).isSome) :
    gap source window start stop = .ok (slice source start stop) := by
  obtain ⟨text, sliced⟩ := slice?_isSome ordered first last
  rw [gap, slice, sliced]
  rfl

theorem fill_eq {window : Span} {edits : List Replacement}
    (laid : Laid source window (edits.map Replacement.span)) {cursor : Nat}
    (ahead : Ahead source cursor window.stop edits) :
    fill source window edits cursor = .ok (interleaveFrom source window.stop edits cursor) := by
  induction edits generalizing cursor with
  | nil => exact gap_eq ahead.inside ahead.standing laid.around.stop
  | cons edit rest ih =>
      obtain ⟨bounded, within⟩ := laid.head
      have reached := ahead.before edit List.mem_cons_self
      have placed : ¬ (edit.span.start < window.start ∨ window.stop < edit.span.stop
          ∨ edit.span.stop < edit.span.start) := by
        have ordered := bounded.ordered
        omega
      have kept : gap source window cursor edit.span.start
          = .ok (slice source cursor edit.span.start) :=
        gap_eq reached ahead.standing bounded.start
      simp only [fill, if_neg placed, if_neg (Nat.not_lt.mpr reached), kept,
        ih laid.tail laid.aheadTail]
      rfl

/-- Splicing at places that are laid out in order fills the places and copies the rest. -/
theorem splice_eq {window : Span} {edits : List Replacement}
    (laid : Laid source window (edits.map Replacement.span)) :
    splice source window edits = .ok (interleave source window edits) := by
  obtain ⟨whole, sliced⟩ := slice?_isSome laid.around.ordered laid.around.start laid.around.stop
  have sorted : edits.Pairwise fun first second =>
      decide (first.span.start ≤ second.span.start) = true := by
    apply List.Pairwise.imp_of_mem _ (List.pairwise_map.mp laid.ordered)
    intro first second member _ apart
    have ordered := (laid.bounded first.span (List.mem_map_of_mem member)).ordered
    exact decide_eq_true (Nat.le_trans ordered apart)
  rw [splice, sliced]
  dsimp only
  rw [List.mergeSort_of_pairwise sorted]
  exact fill_eq laid laid.ahead

/-- What lies before the first place is copied, in one piece or in two. -/
theorem slice_interleaveFrom {window : Span} {edits : List Replacement}
    (laid : Laid source window (edits.map Replacement.span)) {start cursor : Nat}
    (standing : (boundary? source start).isSome) (before : start ≤ cursor)
    (ahead : Ahead source cursor window.stop edits) :
    slice source start cursor ++ interleaveFrom source window.stop edits cursor
      = interleaveFrom source window.stop edits start := by
  cases edits with
  | nil => exact slice_append standing ahead.standing laid.around.stop before ahead.inside
  | cons edit rest =>
      have gaps : slice source start cursor ++ slice source cursor edit.span.start
          = slice source start edit.span.start :=
        slice_append standing ahead.standing laid.head.1.start before
          (ahead.before edit List.mem_cons_self)
      rw [interleaveFrom, interleaveFrom, ← gaps]
      simp only [String.append_assoc]

/-- Places that keep their text may be left out. -/
theorem interleaveFrom_skip {window : Span} {edit : Replacement} {rest : List Replacement}
    (laid : Laid source window ((edit :: rest).map Replacement.span)) {cursor : Nat}
    (ahead : Ahead source cursor window.stop (edit :: rest))
    (kept : edit.text = slice source edit.span.start edit.span.stop) :
    interleaveFrom source window.stop (edit :: rest) cursor
      = interleaveFrom source window.stop rest cursor := by
  obtain ⟨bounded, _⟩ := laid.head
  have reached := ahead.before edit List.mem_cons_self
  rw [interleaveFrom, kept,
    slice_append ahead.standing bounded.start bounded.stop reached bounded.ordered]
  exact slice_interleaveFrom laid.tail ahead.standing (Nat.le_trans reached bounded.ordered)
    laid.aheadTail

theorem interleaveFrom_append {window : Span} {more : List Replacement}
    (laid : Laid source window (more.map Replacement.span)) {place : Span}
    (ahead : Ahead source place.stop window.stop more) {edits : List Replacement}
    (inner : Laid source place (edits.map Replacement.span)) {cursor : Nat}
    (start : Ahead source cursor place.stop edits) :
    interleaveFrom source place.stop edits cursor
        ++ interleaveFrom source window.stop more place.stop
      = interleaveFrom source window.stop (edits ++ more) cursor := by
  induction edits generalizing cursor with
  | nil => exact slice_interleaveFrom laid start.standing start.inside ahead
  | cons edit rest ih =>
      simp only [interleaveFrom, List.cons_append, String.append_assoc,
        ih inner.tail inner.aheadTail]

section

variable {window : Span} {pairs : List (Span × List Replacement)}

/-- Places laid out inside places that are laid out are laid out themselves. -/
theorem Laid.nested (laid : Laid source window (pairs.map Prod.fst))
    (inner : ∀ pair ∈ pairs, Laid source pair.1 (pair.2.map Replacement.span)) :
    Laid source window ((pairs.flatMap Prod.snd).map Replacement.span) := by
  rw [List.map_flatMap]
  refine ⟨laid.around, ?_, ?_, ?_⟩
  · intro place member
    obtain ⟨pair, among, within⟩ := List.mem_flatMap.mp member
    exact (inner pair among).bounded place within
  · intro place member
    obtain ⟨pair, among, within⟩ := List.mem_flatMap.mp member
    have outer := laid.inside pair.1 (List.mem_map_of_mem among)
    have close := (inner pair among).inside place within
    omega
  · rw [List.pairwise_flatMap]
    refine ⟨fun pair among => (inner pair among).ordered, ?_⟩
    apply List.Pairwise.imp_of_mem _ (List.pairwise_map.mp laid.ordered)
    intro first second firstAmong secondAmong apart place within other also
    have close := (inner first firstAmong).inside place within
    have far := (inner second secondAmong).inside other also
    omega

theorem ahead_nested {cursor : Nat} (standing : (boundary? source cursor).isSome)
    (within : cursor ≤ window.stop)
    (inner : ∀ pair ∈ pairs, Laid source pair.1 (pair.2.map Replacement.span))
    (before : ∀ pair ∈ pairs, cursor ≤ pair.1.start) :
    Ahead source cursor window.stop (pairs.flatMap Prod.snd) := by
  refine ⟨standing, within, ?_⟩
  intro edit member
  obtain ⟨pair, among, held⟩ := List.mem_flatMap.mp member
  have close := ((inner pair among).inside edit.span (List.mem_map_of_mem held)).1
  exact Nat.le_trans (before pair among) close

/-- Filling places with windows whose own places are filled fills all the inner places. -/
theorem interleaveFrom_nested (laid : Laid source window (pairs.map Prod.fst))
    (inner : ∀ pair ∈ pairs, Laid source pair.1 (pair.2.map Replacement.span)) {cursor : Nat}
    (standing : (boundary? source cursor).isSome)
    (before : ∀ pair ∈ pairs, cursor ≤ pair.1.start) :
    interleaveFrom source window.stop
        (pairs.map fun pair => ⟨pair.1, interleave source pair.1 pair.2⟩) cursor
      = interleaveFrom source window.stop (pairs.flatMap Prod.snd) cursor := by
  induction pairs generalizing cursor with
  | nil => rfl
  | cons pair rest ih =>
      obtain ⟨place, edits⟩ := pair
      obtain ⟨here, later⟩ := List.forall_mem_cons.mp inner
      have bounded := laid.bounded place List.mem_cons_self
      have within := laid.inside place List.mem_cons_self
      have tail : Laid source window (rest.map Prod.fst) :=
        laid.sublist (List.sublist_cons_self ..)
      have apart : ∀ pair ∈ rest, place.stop ≤ pair.1.start := fun pair member =>
        (List.pairwise_cons.mp laid.ordered).1 pair.1 (List.mem_map_of_mem member)
      have behind : Ahead source place.stop window.stop (rest.flatMap Prod.snd) :=
        ahead_nested bounded.stop within.2 later apart
      have start : Ahead source place.start window.stop (edits ++ rest.flatMap Prod.snd) :=
        ahead_nested bounded.start (Nat.le_trans bounded.ordered within.2) inner
          (List.forall_mem_cons.mpr ⟨Nat.le_refl _, fun pair member =>
            Nat.le_trans bounded.ordered (apart pair member)⟩)
      have reached : cursor ≤ place.start := before _ List.mem_cons_self
      rw [List.map_cons, interleaveFrom, ih tail later bounded.stop apart, String.append_assoc,
        interleave, interleaveFrom_append (tail.nested later) behind here here.ahead,
        List.flatMap_cons]
      exact slice_interleaveFrom (laid.nested inner) standing reached start

/-- The same for a whole window. -/
theorem interleave_nested (laid : Laid source window (pairs.map Prod.fst))
    (inner : ∀ pair ∈ pairs, Laid source pair.1 (pair.2.map Replacement.span)) :
    interleave source window (pairs.map fun pair => ⟨pair.1, interleave source pair.1 pair.2⟩)
      = interleave source window (pairs.flatMap Prod.snd) :=
  interleaveFrom_nested laid inner laid.around.start fun pair member =>
    (laid.inside pair.1 (List.mem_map_of_mem member)).1

end

/-- Texts put in at the two ends of a window stand around it. -/
theorem interleave_enclosed {window : Span} {edits : List Replacement}
    (laid : Laid source window (edits.map Replacement.span)) (front back : String) :
    interleave source window (⟨⟨window.start, window.start⟩, front⟩
        :: edits ++ [⟨⟨window.stop, window.stop⟩, back⟩])
      = front ++ interleave source window edits ++ back := by
  let last : Replacement := ⟨⟨window.stop, window.stop⟩, back⟩
  have ends : Laid source window ([last].map Replacement.span) :=
    laid_singleton laid.around ⟨laid.around.stop, laid.around.stop, Nat.le_refl _⟩
      ⟨laid.around.ordered, Nat.le_refl _⟩
  have ahead : Ahead source window.stop window.stop [last] :=
    ⟨laid.around.stop, Nat.le_refl _, by simp [last]⟩
  have closing := interleaveFrom_append ends ahead laid laid.ahead
  have behind : interleaveFrom source window.stop [last] window.stop = back := by
    simp [last, interleaveFrom]
  rw [behind] at closing
  rw [interleave, List.cons_append, interleaveFrom, ← closing, interleave, slice_self]
  simp only [String.empty_append, String.append_assoc]

end Codemod.Text
