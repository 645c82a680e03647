import Codemod.Proofs.Text.Interleave
import Mathlib.Data.List.Chain
import Mathlib.Data.List.Sort

/-!
What splicing answers. The replacements are taken by their starts, those with one start in the order in
which they were given. They are made if the window and all places lie between characters, the places
lie in the window, and each ends before the next one begins; otherwise the first thing wrong is told.
Main statement: this is all that splicing does (`splice_answers`).
-/

namespace Codemod.Text

variable {source : String} {window : Span} {edit : Replacement} {edits : List Replacement}

def notLater (first second : Replacement) : Bool :=
  decide (first.span.start ≤ second.span.start)

theorem notLater_trans (a b c : Replacement) (first : notLater a b = true)
    (second : notLater b c = true) : notLater a c = true :=
  decide_eq_true (Nat.le_trans (of_decide_eq_true first) (of_decide_eq_true second))

theorem notLater_total (a b : Replacement) : (notLater a b || notLater b a) = true := by
  simpa [notLater] using Nat.le_total a.span.start b.span.start

-- By their starts; of two with one start the one given first comes first.
def byStart (edits : List Replacement) : List Replacement :=
  edits.mergeSort notLater

theorem byStart_perm (edits : List Replacement) : (byStart edits).Perm edits :=
  List.mergeSort_perm ..

@[simp] theorem mem_byStart : edit ∈ byStart edits ↔ edit ∈ edits :=
  (byStart_perm edits).mem_iff

theorem byStart_ordered (edits : List Replacement) :
    (byStart edits).Pairwise fun first second => first.span.start ≤ second.span.start :=
  (List.pairwise_mergeSort notLater_trans notLater_total edits).imp of_decide_eq_true

theorem byStart_of_sorted (sorted : edits.Pairwise fun first second => notLater first second = true) :
    byStart edits = edits :=
  List.mergeSort_of_pairwise sorted

/-- Replacements with one start keep their order. -/
theorem byStart_stable (edits : List Replacement) (start : Nat) :
    (byStart edits).filter (fun edit => edit.span.start = start)
      = edits.filter fun edit => edit.span.start = start := by
  have level : (edits.filter fun edit => edit.span.start = start).Pairwise
      fun first second => notLater first second = true := by
    rw [List.pairwise_filter]
    refine List.pairwise_of_forall fun first second here there => decide_eq_true ?_
    rw [of_decide_eq_true here, of_decide_eq_true there]
  -- What has one start is in order already, so sorting takes nothing out of it.
  have kept : (edits.filter fun edit => edit.span.start = start).Sublist (byStart edits) :=
    List.sublist_mergeSort notLater_trans notLater_total level List.filter_sublist
  have among := kept.filter fun edit => decide (edit.span.start = start)
  rw [List.filter_filter] at among
  simp only [Bool.and_self] at among
  exact (among.eq_of_length ((byStart_perm edits).filter _).length_eq.symm).symm

theorem byStart_of_perm {others : List Replacement} (order : edits.Perm others)
    (distinct : (edits.map fun edit => edit.span.start).Nodup) : byStart edits = byStart others := by
  apply List.Perm.eq_of_pairwise _ (byStart_ordered edits) (byStart_ordered others)
  · exact (byStart_perm edits).trans (order.trans (byStart_perm others).symm)
  · intro first second here there before after
    rw [mem_byStart] at here there
    exact List.inj_on_of_nodup_map distinct here (order.mem_iff.mpr there)
      (Nat.le_antisymm before after)

structure Fitting (source : String) (window : Span) (edit : Replacement) : Prop where
  bounded : edit.span.Bounded source
  inside : window.start ≤ edit.span.start ∧ edit.span.stop ≤ window.stop

def Apart (first second : Replacement) : Prop :=
  first.span.stop ≤ second.span.start

instance (first second : Replacement) : Decidable (Apart first second) :=
  Nat.decLe ..

def FirstOverlap (edits : List Replacement) (edit : Replacement) : Prop :=
  ∃ front before rest, edits = front ++ before :: edit :: rest
    ∧ (front ++ [before]).IsChain Apart ∧ ¬ Apart before edit

theorem laid_iff : Laid source window (edits.map Replacement.span) ↔ window.Bounded source
    ∧ (∀ edit ∈ edits, Fitting source window edit) ∧ edits.IsChain Apart := by
  constructor
  · intro laid
    refine ⟨laid.around, ?_, (List.pairwise_map.mp laid.ordered).isChain⟩
    intro edit member
    have among := List.mem_map_of_mem (f := Replacement.span) member
    exact ⟨laid.bounded _ among, laid.inside _ among⟩
  · rintro ⟨around, fitting, chain⟩
    refine ⟨around, ?_, ?_, List.pairwise_map.mpr ?_⟩
    · exact List.forall_mem_map.mpr fun edit member => (fitting edit member).bounded
    · exact List.forall_mem_map.mpr fun edit member => (fitting edit member).inside
    · clear around
      induction edits with
      | nil => exact List.Pairwise.nil
      | cons edit rest ih =>
          have ordered := ih (fun other member => fitting other (List.mem_cons_of_mem _ member))
            chain.tail
          refine List.pairwise_cons.mpr ⟨?_, ordered⟩
          cases rest with
          | nil => exact nofun
          | cons next rest =>
              -- No place ends before it starts, so those after the next one are further on.
              have first : edit.span.stop ≤ next.span.start := (List.isChain_cons_cons.mp chain).1
              have placed := (fitting next (by simp)).bounded.ordered
              intro other member
              rcases List.mem_cons.mp member with rfl | later
              · exact first
              · have further := (List.pairwise_cons.mp ordered).1 other later
                omega

/-- Places that are not all apart have a first one that is not. -/
theorem isChain_or_firstOverlap (edits : List Replacement) :
    edits.IsChain Apart ∨ ∃ edit, FirstOverlap edits edit := by
  induction edits using List.reverseRecOn with
  | nil => exact Or.inl List.IsChain.nil
  | append_singleton front edit ih =>
      rcases ih with chain | ⟨other, outer, before, rest, rfl, chain, overlap⟩
      · rcases front.eq_nil_or_concat with rfl | ⟨front, before, rfl⟩
        · exact Or.inl (List.isChain_singleton _)
        · rw [List.concat_eq_append] at chain ⊢
          by_cases apart : Apart before edit
          · left
            rw [List.append_assoc, List.singleton_append, List.isChain_append_cons_cons]
            exact ⟨chain, apart, List.isChain_singleton _⟩
          · exact Or.inr ⟨edit, front, before, [], by simp, chain, apart⟩
      · exact Or.inr ⟨other, outer, before, rest ++ [edit], by simp, chain, overlap⟩

theorem splice_byStart (source : String) (window : Span) (edits : List Replacement) :
    splice source window edits = match slice? source window.start window.stop with
      | none => .error (.outOfBounds window ⟨0, source.utf8ByteSize⟩)
      | some _ => fill source window (byStart edits) window.start := rfl

theorem splice_eq_fill (around : window.Bounded source) :
    splice source window edits = fill source window (byStart edits) window.start := by
  obtain ⟨whole, sliced⟩ := slice?_isSome around.ordered around.start around.stop
  rw [splice_byStart, sliced]

theorem bounded_of_slice? {start stop : Nat} {text : String}
    (sliced : slice? source start stop = some text) : Span.Bounded source ⟨start, stop⟩ := by
  unfold slice? at sliced
  split at sliced
  · next ordered =>
    obtain ⟨first, atStart, rest⟩ := Option.bind_eq_some_iff.mp sliced
    obtain ⟨last, atStop, _⟩ := Option.bind_eq_some_iff.mp rest
    exact ⟨by simp [atStart], by simp [atStop], ordered⟩
  · cases sliced

/-- One step: the place is looked at, the gap before it copied, and the rest is filled behind it. -/
theorem fill_cons (source : String) (window : Span) (edit : Replacement) (edits : List Replacement)
    (cursor : Nat) :
    fill source window (edit :: edits) cursor =
      if edit.span.start < window.start ∨ window.stop < edit.span.stop
          ∨ edit.span.stop < edit.span.start then
        .error (.outOfBounds edit.span window)
      else if edit.span.start < cursor then .error (.overlapping edit.span.start)
      else match slice? source cursor edit.span.start with
        | none => .error (.outOfBounds ⟨cursor, edit.span.start⟩ window)
        | some before => (fill source window edits edit.span.stop).map fun after =>
            before ++ edit.text ++ after := by
  rw [fill]
  split
  · rfl
  · split
    · rfl
    · rw [gap]
      cases slice? source cursor edit.span.start with
      | none => rfl
      | some before => cases fill source window edits edit.span.stop <;> rfl

/-- Text is filled in only where the cursor stands between characters. -/
theorem standing_of_fill {cursor : Nat} {text : String}
    (filled : fill source window edits cursor = .ok text) : (boundary? source cursor).isSome := by
  cases edits with
  | nil =>
      rw [fill, gap] at filled
      split at filled
      · next sliced => exact (bounded_of_slice? sliced).start
      · cases filled
  | cons edit rest =>
      rw [fill_cons] at filled
      split at filled
      · cases filled
      · split at filled
        · cases filled
        · split at filled
          · cases filled
          · next sliced => exact (bounded_of_slice? sliced).start

/-- What is filled has its places in the window, behind the cursor and one after the other. -/
theorem fitting_of_fill {cursor : Nat} {text : String}
    (filled : fill source window edits cursor = .ok text) :
    (∀ edit ∈ edits, Fitting source window edit) ∧ edits.IsChain Apart
      ∧ ∀ edit ∈ edits.head?, cursor ≤ edit.span.start := by
  induction edits generalizing cursor text with
  | nil => exact ⟨nofun, List.IsChain.nil, nofun⟩
  | cons edit rest ih =>
      rw [fill_cons] at filled
      split at filled
      · cases filled
      next placed =>
      split at filled
      · cases filled
      next reached =>
      split at filled
      · cases filled
      next before sliced =>
      obtain ⟨after, later, _⟩ : ∃ after, fill source window rest edit.span.stop = .ok after
          ∧ before ++ edit.text ++ after = text := by
        cases further : fill source window rest edit.span.stop with
        | error reason => simp [further, Except.map] at filled
        | ok after => exact ⟨after, rfl, by simpa [further, Except.map] using filled⟩
      obtain ⟨fitting, chain, next⟩ := ih later
      have bounded : edit.span.Bounded source :=
        ⟨(bounded_of_slice? sliced).stop, standing_of_fill later, by omega⟩
      refine ⟨?_, List.isChain_cons.mpr ⟨next, chain⟩, ?_⟩
      · exact List.forall_mem_cons.mpr ⟨⟨bounded, by omega⟩, fitting⟩
      · rintro _ ⟨⟩
        omega

/-- A place that fits behind the cursor is passed. -/
theorem fill_passes {cursor : Nat} (edits : List Replacement) (here : Fitting source window edit)
    (standing : (boundary? source cursor).isSome) (reached : cursor ≤ edit.span.start) :
    ∃ before, fill source window (edit :: edits) cursor
      = (fill source window edits edit.span.stop).map fun after => before ++ edit.text ++ after := by
  have ordered := here.bounded.ordered
  have within := here.inside
  obtain ⟨before, sliced⟩ := slice?_isSome reached standing here.bounded.start
  refine ⟨before, ?_⟩
  rw [fill_cons, if_neg (by omega), if_neg (by omega), sliced]

/-- Places that fit are passed up to the first that begins before the one ahead of it ends. -/
theorem fill_overlapping {front rest : List Replacement} {before : Replacement} {cursor : Nat}
    (fitting : ∀ other ∈ front ++ before :: edit :: rest, Fitting source window other)
    (chain : (front ++ [before]).IsChain Apart) (overlap : ¬ Apart before edit)
    (ahead : ∀ other ∈ (front ++ [before]).head?, cursor ≤ other.span.start)
    (standing : (boundary? source cursor).isSome) :
    fill source window (front ++ before :: edit :: rest) cursor
      = .error (.overlapping edit.span.start) := by
  induction front generalizing cursor with
  | nil =>
      have here : Fitting source window before := fitting before (by simp)
      obtain ⟨gap, passes⟩ := fill_passes (edit :: rest) here standing (ahead before rfl)
      obtain ⟨bounded, within⟩ := fitting edit (by simp)
      have ordered := bounded.ordered
      have inner : edit.span.start < before.span.stop := Nat.lt_of_not_le overlap
      rw [List.nil_append, passes, fill_cons, if_neg (by omega), if_pos inner]
      rfl
  | cons first front ih =>
      obtain ⟨here, later⟩ := List.forall_mem_cons.mp fitting
      obtain ⟨next, further⟩ := List.isChain_cons.mp chain
      obtain ⟨gap, passes⟩ := fill_passes (front ++ before :: edit :: rest) here standing
        (ahead first rfl)
      rw [List.cons_append, passes, ih later further next here.bounded.stop]
      rfl

/-- Where places are apart, nothing is told but what lies outside the window or inside a
character. -/
theorem outOfBounds_of_fill {cursor : Nat} {error : SpliceError} (chain : edits.IsChain Apart)
    (ahead : ∀ edit ∈ edits.head?, window.start ≤ edit.span.start → cursor ≤ edit.span.start)
    (refused : fill source window edits cursor = .error error) :
    ∃ span within, error = .outOfBounds span within := by
  induction edits generalizing cursor with
  | nil =>
      rw [fill, gap] at refused
      split at refused
      · cases refused
      · cases refused
        exact ⟨_, _, rfl⟩
  | cons edit rest ih =>
      rw [fill_cons] at refused
      split at refused
      · cases refused
        exact ⟨_, _, rfl⟩
      next placed =>
      have reached : cursor ≤ edit.span.start := ahead edit rfl (by omega)
      rw [if_neg (by omega)] at refused
      split at refused
      · cases refused
        exact ⟨_, _, rfl⟩
      · obtain ⟨next, further⟩ := List.isChain_cons.mp chain
        cases later : fill source window rest edit.span.stop with
        | ok after => simp [later, Except.map] at refused
        | error reason =>
            rw [later] at refused
            cases refused
            exact ih further (fun other member _ => next other member) later

/-- With the window and all places between characters, and the places in the window, what is told is
the first place that begins before the one ahead of it ends. -/
theorem splice_eq_error_iff (around : window.Bounded source)
    (fitting : ∀ edit ∈ edits, Fitting source window edit) {error : SpliceError} :
    splice source window edits = .error error
      ↔ ∃ edit, FirstOverlap (byStart edits) edit ∧ error = .overlapping edit.span.start := by
  have sorted : ∀ edit ∈ byStart edits, Fitting source window edit :=
    fun edit member => fitting edit (mem_byStart.mp member)
  have overlaps : ∀ edit, FirstOverlap (byStart edits) edit →
      splice source window edits = .error (.overlapping edit.span.start) := by
    rintro edit ⟨front, before, rest, order, chain, overlap⟩
    rw [splice_eq_fill around]
    rw [order] at sorted ⊢
    apply fill_overlapping sorted chain overlap _ around.start
    intro other first
    have member : other ∈ front ++ before :: edit :: rest := by
      rw [List.append_cons]
      exact List.mem_append_left _ (List.mem_of_mem_head? first)
    exact (sorted other member).inside.1
  constructor
  · intro refused
    rcases isChain_or_firstOverlap (byStart edits) with chain | ⟨edit, first⟩
    · have laid := laid_iff.mpr ⟨around, sorted, chain⟩
      rw [splice_eq_fill around, fill_eq laid laid.ahead] at refused
      cases refused
    · rw [overlaps edit first] at refused
      cases refused
      exact ⟨edit, first, rfl⟩
  · rintro ⟨edit, first, rfl⟩
    exact overlaps edit first

/-- Places that get the text they have make no difference. -/
theorem interleaveFrom_kept (laid : Laid source window (edits.map Replacement.span)) {cursor : Nat}
    (ahead : Ahead source cursor window.stop edits)
    (kept : ∀ edit ∈ edits, edit.text = slice source edit.span.start edit.span.stop) :
    interleaveFrom source window.stop edits cursor = slice source cursor window.stop := by
  induction edits with
  | nil => rfl
  | cons edit rest ih =>
      obtain ⟨here, later⟩ := List.forall_mem_cons.mp kept
      have further : Ahead source cursor window.stop rest :=
        ⟨ahead.standing, ahead.inside, (List.forall_mem_cons.mp ahead.before).2⟩
      exact (interleaveFrom_skip laid ahead here).trans (ih laid.tail further later)

-- The replacement that leaves its place as it is.
def kept (source : String) (edit : Replacement) : Replacement :=
  { edit with text := slice source edit.span.start edit.span.stop }

/-- All that splicing does. It succeeds exactly if the window and all places lie between characters,
the places lie in the window, and in order of their starts each ends before the next one begins; then
the places of the window have their new texts, and the gaps, which together with the former texts make
up the text of the window, are copied. Where only places that begin too early are in the way, the first
of them is told; where none of them is, what is told lies outside its bounds. The order in which
replacements with different starts are given makes no difference. -/
theorem splice_answers (source : String) (window : Span) (edits : List Replacement) :
    ((byStart edits).Perm edits
        ∧ (byStart edits).Pairwise (fun first second => first.span.start ≤ second.span.start)
        ∧ ∀ start, (byStart edits).filter (fun edit => edit.span.start = start)
          = edits.filter fun edit => edit.span.start = start)
      ∧ (∀ text, splice source window edits = .ok text ↔ window.Bounded source
        ∧ (∀ edit ∈ edits, Fitting source window edit) ∧ (byStart edits).IsChain Apart
        ∧ text = interleave source window (byStart edits))
      ∧ (window.Bounded source → (∀ edit ∈ edits, Fitting source window edit) →
        (byStart edits).IsChain Apart →
          interleave source window ((byStart edits).map (kept source))
            = slice source window.start window.stop)
      ∧ (window.Bounded source → (∀ edit ∈ edits, Fitting source window edit) → ∀ error,
        splice source window edits = .error error
          ↔ ∃ edit, FirstOverlap (byStart edits) edit ∧ error = .overlapping edit.span.start)
      ∧ ((byStart edits).IsChain Apart → ∀ error, splice source window edits = .error error →
        ∃ span within, error = .outOfBounds span within)
      ∧ ∀ others, edits.Perm others → (edits.map fun edit => edit.span.start).Nodup →
        splice source window edits = splice source window others := by
  have laid_of : window.Bounded source → (∀ edit ∈ edits, Fitting source window edit) →
      (byStart edits).IsChain Apart → Laid source window ((byStart edits).map Replacement.span) :=
    fun around fitting chain =>
      laid_iff.mpr ⟨around, fun edit member => fitting edit (mem_byStart.mp member), chain⟩
  refine ⟨⟨byStart_perm edits, byStart_ordered edits, byStart_stable edits⟩, ?_, ?_,
    fun around fitting _ => splice_eq_error_iff around fitting, ?_, ?_⟩
  · intro text
    constructor
    · -- A splice that went through has checked the window, each place and the order of the places.
      intro spliced
      have around : window.Bounded source := by
        rw [splice] at spliced
        split at spliced
        · cases spliced
        · next sliced => exact bounded_of_slice? sliced
      rw [splice_eq_fill around] at spliced
      obtain ⟨fitting, chain, _⟩ := fitting_of_fill spliced
      have given : ∀ edit ∈ edits, Fitting source window edit :=
        fun edit member => fitting edit (mem_byStart.mpr member)
      have laid := laid_of around given chain
      rw [fill_eq laid laid.ahead] at spliced
      exact ⟨around, given, chain, (Except.ok.inj spliced).symm⟩
    · rintro ⟨around, fitting, chain, rfl⟩
      have laid := laid_of around fitting chain
      rw [splice_eq_fill around, fill_eq laid laid.ahead, interleave]
  · intro around fitting chain
    have laid : Laid source window (((byStart edits).map (kept source)).map Replacement.span) := by
      simpa [Function.comp_def, kept] using laid_of around fitting chain
    apply interleaveFrom_kept laid laid.ahead
    rintro _ member
    obtain ⟨edit, _, rfl⟩ := List.mem_map.mp member
    rfl
  · intro chain error refused
    by_cases around : window.Bounded source
    · rw [splice_eq_fill around] at refused
      exact outOfBounds_of_fill chain (fun _ _ within => within) refused
    · rw [splice] at refused
      split at refused
      · cases refused
        exact ⟨_, _, rfl⟩
      · next sliced => exact absurd (bounded_of_slice? sliced) around
  · intro others order distinct
    rw [splice_byStart, splice_byStart, byStart_of_perm order distinct]

-- Three places behind one another, the first and the second with nothing between them.
def wordEdits : List Replacement :=
  [⟨⟨6, 7⟩, "é"⟩, ⟨⟨1, 3⟩, "u"⟩, ⟨⟨3, 3⟩, "-"⟩]

/-- Of the text `añadir` all is kept but the places, in whatever order they are given; a place that
starts in one of the others is told. -/
theorem splice_answers_word :
    splice "añadir" ⟨0, 7⟩ wordEdits = .ok "au-adié"
      ∧ splice "añadir" ⟨0, 7⟩ wordEdits.reverse = .ok "au-adié"
      ∧ splice "añadir" ⟨0, 7⟩ (⟨⟨0, 4⟩, ""⟩ :: wordEdits) = .error (.overlapping 1) := by
  have around : Span.Bounded "añadir" ⟨0, 7⟩ := by decide +kernel
  have fitting : ∀ edit ∈ ⟨⟨0, 4⟩, ""⟩ :: wordEdits, Fitting "añadir" ⟨0, 7⟩ edit := by
    have bounded : ∀ edit ∈ ⟨⟨0, 4⟩, ""⟩ :: wordEdits, edit.span.Bounded "añadir" := by
      decide +kernel
    have inside : ∀ edit ∈ ⟨⟨0, 4⟩, ""⟩ :: wordEdits, 0 ≤ edit.span.start ∧ edit.span.stop ≤ 7 := by
      decide
    exact fun edit member => ⟨bounded edit member, inside edit member⟩
  have sorted : byStart wordEdits = [⟨⟨1, 3⟩, "u"⟩, ⟨⟨3, 3⟩, "-"⟩, ⟨⟨6, 7⟩, "é"⟩] :=
    (byStart_of_perm (by decide) (by decide)).trans (byStart_of_sorted (by decide))
  obtain ⟨_, answers, _, _, _, reordered⟩ := splice_answers "añadir" ⟨0, 7⟩ wordEdits
  have made : splice "añadir" ⟨0, 7⟩ wordEdits = .ok "au-adié" := by
    refine (answers _).mpr ⟨around, (List.forall_mem_cons.mp fitting).2, ?_, ?_⟩
    · rw [sorted]
      decide
    · rw [sorted]
      decide +kernel
  have distinct : (wordEdits.map fun edit => edit.span.start).Nodup := by decide
  refine ⟨made, (reordered _ wordEdits.reverse_perm.symm distinct).symm.trans made, ?_⟩
  obtain ⟨_, _, _, refusals, _⟩ := splice_answers "añadir" ⟨0, 7⟩ (⟨⟨0, 4⟩, ""⟩ :: wordEdits)
  have wide : byStart (⟨⟨0, 4⟩, ""⟩ :: wordEdits)
      = [⟨⟨0, 4⟩, ""⟩, ⟨⟨1, 3⟩, "u"⟩, ⟨⟨3, 3⟩, "-"⟩, ⟨⟨6, 7⟩, "é"⟩] :=
    (byStart_of_perm (by decide) (by decide)).trans (byStart_of_sorted (by decide))
  refine (refusals around fitting _).mpr ⟨⟨⟨1, 3⟩, "u"⟩, ?_, rfl⟩
  exact ⟨[], ⟨⟨0, 4⟩, ""⟩, _, wide, List.isChain_singleton _, by decide⟩

end Codemod.Text
