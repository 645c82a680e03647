import Codemod.Text.Splice

/-!
Places inside a window of a text. Places that lie in the window one after the other, with all ends
between characters, are what can be replaced all at once.
-/

namespace Codemod

structure Span.Bounded (source : String) (span : Span) : Prop where
  start : (Text.boundary? source span.start).isSome
  stop : (Text.boundary? source span.stop).isSome
  ordered : span.start ≤ span.stop

instance (source : String) (span : Span) : Decidable (span.Bounded source) :=
  decidable_of_iff ((Text.boundary? source span.start).isSome
      ∧ (Text.boundary? source span.stop).isSome ∧ span.start ≤ span.stop)
    ⟨fun ⟨start, stop, ordered⟩ => ⟨start, stop, ordered⟩,
      fun ⟨start, stop, ordered⟩ => ⟨start, stop, ordered⟩⟩

namespace Text

/-- Places that lie inside a window, one after the other. -/
structure Laid (source : String) (window : Span) (places : List Span) : Prop where
  around : window.Bounded source
  bounded : ∀ place ∈ places, place.Bounded source
  inside : ∀ place ∈ places, window.start ≤ place.start ∧ place.stop ≤ window.stop
  ordered : places.Pairwise fun first second => first.stop ≤ second.start

instance (source : String) (window : Span) (places : List Span) :
    Decidable (Laid source window places) :=
  decidable_of_iff (window.Bounded source ∧ (∀ place ∈ places, place.Bounded source)
      ∧ (∀ place ∈ places, window.start ≤ place.start ∧ place.stop ≤ window.stop)
      ∧ places.Pairwise fun first second => first.stop ≤ second.start)
    ⟨fun ⟨around, bounded, inside, ordered⟩ => ⟨around, bounded, inside, ordered⟩,
      fun ⟨around, bounded, inside, ordered⟩ => ⟨around, bounded, inside, ordered⟩⟩

theorem Laid.sublist {source : String} {window : Span} {places fewer : List Span}
    (laid : Laid source window places) (part : fewer.Sublist places) :
    Laid source window fewer where
  around := laid.around
  bounded place member := laid.bounded place (part.subset member)
  inside place member := laid.inside place (part.subset member)
  ordered := laid.ordered.sublist part

theorem laid_singleton {source : String} {window place : Span} (around : window.Bounded source)
    (bounded : place.Bounded source)
    (inside : window.start ≤ place.start ∧ place.stop ≤ window.stop) :
    Laid source window [place] where
  around := around
  bounded := List.forall_mem_singleton.mpr bounded
  inside := List.forall_mem_singleton.mpr inside
  ordered := List.pairwise_singleton ..

theorem slice?_isSome {source : String} {start stop : Nat} (ordered : start ≤ stop)
    (first : (boundary? source start).isSome) (last : (boundary? source stop).isSome) :
    ∃ text, slice? source start stop = some text := by
  obtain ⟨front, atStart⟩ := Option.isSome_iff_exists.mp first
  obtain ⟨back, atStop⟩ := Option.isSome_iff_exists.mp last
  exact ⟨source.extract front back, by simp [slice?, ordered, atStart, atStop]⟩

end Text

end Codemod
