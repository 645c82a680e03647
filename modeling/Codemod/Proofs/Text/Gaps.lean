import Codemod.Proofs.Text.Ink
import Codemod.Proofs.Text.Interleave

/-!
Lists in a text. The places of the items of a list leave gaps, and the list is woven from the texts
of the items with something between each two of them: the gaps in the source, other separators where
items were taken out. A comma list is woven with one comma in each gap.
-/

namespace Codemod.Text

variable {α : Type} {source : String}

def gaps (source : String) : List Span → List String
  | first :: second :: rest => slice source first.stop second.start :: gaps source (second :: rest)
  | _ => []

def HasBlank (gap : String) : Prop :=
  ∃ c ∈ gap.toList, isBlank c

instance (gap : String) : Decidable (HasBlank gap) :=
  List.decidableBEx (fun c => isBlank c) gap.toList

theorem hasBlank_of_allBlank {gap : String} (filled : gap ≠ "") (blank : allBlank gap) :
    HasBlank gap := by
  have some : gap.toList ≠ [] := by simpa using filled
  obtain ⟨c, member⟩ := List.exists_mem_of_ne_nil _ some
  exact ⟨c, member, List.all_eq_true.mp blank c member⟩

theorem gaps_getElem? (source : String) (places : List Span) {i : Nat} {before after : Span}
    (here : places[i]? = some before) (next : places[i + 1]? = some after) :
    (gaps source places)[i]? = some (slice source before.stop after.start) := by
  induction places generalizing i with
  | nil => simp at here
  | cons first rest ih =>
      cases rest with
      | nil => simp at next
      | cons second rest =>
          cases i with
          | zero => simp_all [gaps]
          | succ i => simpa [gaps] using ih (by simpa using here) (by simpa using next)

def front (source : String) (window : Span) (places : List Span) : String :=
  slice source window.start (places.head?.elim window.stop Span.start)

def back (source : String) (window : Span) (places : List Span) : String :=
  slice source (places.getLast?.elim window.stop Span.stop) window.stop

/-- Places with ink between each two of them differ. -/
theorem nodup_of_gaps {window : Span} {places : List Span} (laid : Laid source window places)
    (inked : ∀ gap ∈ gaps source places, ink gap ≠ []) : places.Nodup := by
  induction places with
  | nil => exact List.nodup_nil
  | cons first rest ih =>
      have later : Laid source window rest := laid.sublist (List.sublist_cons_self ..)
      cases rest with
      | nil => exact List.pairwise_singleton ..
      | cons second rest =>
          obtain ⟨here, inkedRest⟩ := List.forall_mem_cons.mp inked
          refine List.nodup_cons.mpr ⟨fun again => ?_, ih later inkedRest⟩
          have ordered := (laid.bounded first List.mem_cons_self).ordered
          have apart := (List.pairwise_cons.mp laid.ordered).1
          have close := apart second List.mem_cons_self
          -- The gap holds something, so that the second place starts behind the first one's end.
          have distinct : first.stop ≠ second.start := by
            intro same
            rw [same, slice_self] at here
            exact here ink_empty
          have behind : second.start ≤ first.start := by
            rcases List.mem_cons.mp again with same | among
            · exact Nat.le_of_eq (congrArg Span.start same.symm)
            · have far := (List.pairwise_cons.mp later.ordered).1 first among
              exact Nat.le_trans (later.bounded second List.mem_cons_self).ordered far
          omega

/-- Texts in order with something between each two that stand next to one another. -/
inductive Woven (text : α → String) (between : α → α → String → Prop) : List α → String → Prop
  | single (item : α) : Woven text between [item] (text item)
  | cons {item next : α} {rest : List α} {gap inner : String} (gapped : between item next gap)
      (woven : Woven text between (next :: rest) inner) :
      Woven text between (item :: next :: rest) (text item ++ gap ++ inner)

namespace Woven

variable {text : α → String} {between : α → α → String → Prop} {items : List α} {woven : String}

theorem nonempty (weave : Woven text between items woven) : items ≠ [] := by
  cases weave <;> simp

/-- The same texts of other items, in the same places and with gaps of another kind. -/
theorem map {β : Type} {look : β → String} {other : β → β → String → Prop} (view : α → β)
    (weave : Woven text between items woven) (same : ∀ item ∈ items, look (view item) = text item)
    (allowed : ∀ before ∈ items, ∀ after ∈ items, ∀ gap, between before after gap →
      other (view before) (view after) gap) :
    Woven look other (items.map view) woven := by
  induction weave with
  | single item =>
      rw [← same item List.mem_cons_self]
      exact .single (view item)
  | @cons item next rest gap inner gapped weave ih =>
      have behind := ih (fun item member => same item (List.mem_cons_of_mem _ member))
        fun before early after late => allowed before (List.mem_cons_of_mem _ early) after
          (List.mem_cons_of_mem _ late)
      rw [← same item List.mem_cons_self]
      exact .cons (allowed item List.mem_cons_self next (by simp) gap gapped) behind

/-- The same text of the same items, with gaps of another kind. -/
theorem congr {look : α → String} {other : α → α → String → Prop}
    (weave : Woven text between items woven) (same : ∀ item ∈ items, look item = text item)
    (allowed : ∀ before ∈ items, ∀ after ∈ items, ∀ gap, between before after gap →
      other before after gap) : Woven look other items woven := by
  simpa using weave.map (fun item => item) same allowed

end Woven

theorem Laid.reaches {window : Span} {places : List Span} (laid : Laid source window places)
    {first last : Span} (opens : places.head? = some first) (closes : places.getLast? = some last) :
    first.start ≤ last.stop := by
  cases places with
  | nil => cases opens
  | cons _ rest =>
      cases opens
      have ordered := (laid.bounded last (List.mem_of_getLast? closes)).ordered
      rcases List.mem_cons.mp (List.mem_of_getLast? closes) with rfl | later
      · exact ordered
      · have behind := (List.pairwise_cons.mp laid.ordered).1 last later
        have opening := (laid.bounded first List.mem_cons_self).ordered
        exact Nat.le_trans opening (Nat.le_trans behind ordered)

/-- A window is what stands in front of its places, around them, and behind them. -/
theorem Laid.slice_eq {window : Span} {places : List Span} (laid : Laid source window places)
    {first last : Span} (opens : places.head? = some first) (closes : places.getLast? = some last) :
    slice source window.start window.stop = front source window places
      ++ slice source first.start last.stop ++ back source window places := by
  have head := List.mem_of_mem_head? opens
  have tail := List.mem_of_getLast? closes
  have start := (laid.bounded first head).start
  have stop := (laid.bounded last tail).stop
  have reaches := laid.reaches opens closes
  rw [front, back, opens, closes, Option.elim_some, Option.elim_some,
    slice_append laid.around.start start stop (laid.inside first head).1 reaches,
    slice_append laid.around.start stop laid.around.stop
      (Nat.le_trans (laid.inside first head).1 reaches) (laid.inside last tail).2]

/-- The part of a text from the first place to the last one is woven from the places and the gaps
between them. -/
theorem Laid.woven {window : Span} {places : List Span} (laid : Laid source window places)
    (place : α → Span) {first last : α} {rest : List α} (number : Nat)
    (stand : (first :: rest).map place = places.drop number)
    (ends : (first :: rest).getLast? = some last) :
    Woven (fun entry : α × Nat => slice source (place entry.1).start (place entry.1).stop)
      (fun before after gap => after.2 = before.2 + 1 ∧ (gaps source places)[before.2]? = some gap)
      ((first :: rest).zipIdx number) (slice source (place first).start (place last).stop) := by
  induction rest generalizing first number with
  | nil =>
      cases ends
      exact .single (first, number)
  | cons second rest ih =>
      have standRest : (second :: rest).map place = places.drop (number + 1) := by
        rw [← List.drop_drop, ← stand]
        rfl
      have here : places[number]? = some (place first) := by
        simpa using (congrArg List.head? stand).symm
      have next : places[number + 1]? = some (place second) := by
        simpa using (congrArg List.head? standRest).symm
      rw [List.getLast?_cons_cons] at ends
      have remain : Laid source window ((first :: second :: rest).map place) :=
        laid.sublist (stand ▸ List.drop_sublist number places)
      have bounded : ∀ item ∈ first :: second :: rest, (place item).Bounded source :=
        fun item member => remain.bounded _ (List.mem_map_of_mem member)
      have opens := bounded first List.mem_cons_self
      have follows := bounded second (by simp)
      have closes := bounded last (List.mem_cons_of_mem _ (List.mem_of_getLast? ends))
      have apart : (place first).stop ≤ (place second).start :=
        (List.pairwise_cons.mp remain.ordered).1 _ (by simp)
      have behind : Laid source window ((second :: rest).map place) :=
        remain.sublist (List.sublist_cons_self ..)
      have reaches : (place second).start ≤ (place last).stop :=
        behind.reaches rfl (by rw [List.getLast?_map, ends, Option.map_some])
      -- The text is the first place, the gap behind it, and what is woven from there.
      have parts : slice source (place first).start (place last).stop
          = slice source (place first).start (place first).stop
            ++ slice source (place first).stop (place second).start
            ++ slice source (place second).start (place last).stop := by
        rw [slice_append opens.start opens.stop follows.start opens.ordered apart,
          slice_append opens.start follows.start closes.stop
            (Nat.le_trans opens.ordered apart) reaches]
      rw [parts]
      exact .cons ⟨rfl, gaps_getElem? source places here next⟩ (ih (number + 1) standRest ends)

/-- Items between two delimiters, with a comma between each two and maybe one behind the last, and
with blanks around the items. Without items there is no comma. -/
inductive CommaList (opening closing : String) : List String → String → Prop
  | empty {blank : String} (bare : ink blank = []) :
      CommaList opening closing [] (opening ++ blank ++ closing)
  | items {texts : List String} {lead inner trail : String} (bare : ink lead = [])
      (woven : Woven (fun text => text) (fun _ _ gap => ink gap = [',']) texts inner)
      (ends : ink trail = [] ∨ ink trail = [',']) :
      CommaList opening closing texts (opening ++ lead ++ inner ++ trail ++ closing)

/-- The text of a span is a comma list with its items at the given places. -/
structure CommaPlaces (source : String) (span : Span) (places : List Span)
    (opening lead trail closing : String) : Prop where
  laid : Laid source span places
  delimiter : trimEnd opening = opening
  commas : ∀ gap ∈ gaps source places, ink gap = [',']
  opens : places ≠ [] → front source span places = opening ++ lead
  closes : places ≠ [] → back source span places = trail ++ closing
  before : ink lead = []
  after : ink trail = [] ∨ places ≠ [] ∧ ink trail = [',']
  whole : places = [] → slice source span.start span.stop = opening ++ (lead ++ trail) ++ closing

instance (source : String) (span : Span) (places : List Span) (opening lead trail closing : String) :
    Decidable (CommaPlaces source span places opening lead trail closing) :=
  decidable_of_iff (Laid source span places ∧ trimEnd opening = opening
      ∧ (∀ gap ∈ gaps source places, ink gap = [','])
      ∧ (places ≠ [] → front source span places = opening ++ lead)
      ∧ (places ≠ [] → back source span places = trail ++ closing)
      ∧ ink lead = [] ∧ (ink trail = [] ∨ places ≠ [] ∧ ink trail = [','])
      ∧ (places = [] → slice source span.start span.stop = opening ++ (lead ++ trail) ++ closing))
    ⟨fun ⟨laid, delimiter, commas, opens, closes, before, after, whole⟩ =>
        ⟨laid, delimiter, commas, opens, closes, before, after, whole⟩,
      fun ⟨laid, delimiter, commas, opens, closes, before, after, whole⟩ =>
        ⟨laid, delimiter, commas, opens, closes, before, after, whole⟩⟩

theorem commaList_nil_iff {opening closing between : String} :
    CommaList opening closing [] (opening ++ between ++ closing) ↔ ink between = [] := by
  constructor
  · generalize whole : opening ++ between ++ closing = text
    intro listed
    cases listed with
    | @empty blank bare =>
        have same : opening ++ blank = opening ++ between :=
          (String.append_left_inj closing).mp whole.symm
        rwa [(String.append_right_inj opening).mp same] at bare
    | items _ woven _ => exact absurd rfl woven.nonempty
  · exact .empty

theorem dropTrailing_append {drop : Char → Bool} (front : List Char) {back : List Char}
    (dropped : ∀ c ∈ back, drop c) : dropTrailing drop (front ++ back) = dropTrailing drop front := by
  rw [dropTrailing, dropTrailing, List.reverse_append,
    List.dropWhile_append_of_pos fun c member => dropped c (List.mem_reverse.mp member)]

theorem trimEnd_append_blank (text : String) {blank : String} (bare : ink blank = []) :
    trimEnd (text ++ blank) = trimEnd text := by
  have blanks : ∀ c ∈ blank.toList, isBlank c = true := by
    simpa [allBlank] using ink_eq_nil_iff.mp bare
  rw [trimEnd, String.toList_append, dropTrailing_append _ blanks, trimEnd]

namespace CommaPlaces

variable {span : Span} {places : List Span} {opening lead trail closing : String}
variable (spelled : CommaPlaces source span places opening lead trail closing)

include spelled

theorem nodup : places.Nodup := by
  refine nodup_of_gaps spelled.laid fun gap member => ?_
  simp [spelled.commas gap member]

/-- Other items between the same ends. -/
theorem commaList (placed : places ≠ []) {texts : List String} {inner : String}
    (woven : Woven (fun text => text) (fun _ _ gap => ink gap = [',']) texts inner) :
    CommaList opening closing texts (front source span places ++ inner ++ back source span places) := by
  have listed : CommaList opening closing texts _ :=
    .items spelled.before woven (spelled.after.imp_right And.right)
  rw [spelled.opens placed, spelled.closes placed]
  simpa only [String.append_assoc] using listed

/-- Without items only what stood behind the last one is left between the delimiters. -/
theorem bare (placed : places ≠ []) :
    trimEnd (front source span places) ++ back source span places = opening ++ trail ++ closing := by
  rw [spelled.opens placed, spelled.closes placed, trimEnd_append_blank opening spelled.before,
    spelled.delimiter, String.append_assoc]

end CommaPlaces

end Codemod.Text
