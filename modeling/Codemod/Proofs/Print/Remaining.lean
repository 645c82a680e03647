import Codemod.Proofs.Edit.Thinning
import Codemod.Proofs.Print.Resized
import Codemod.Proofs.Tree.Parsed

/-!
Lists from which items were removed. What remains is printed in order, each item with its own text,
between the ends of the list. Main statements: a comma list stays one as long as an item is left
(`remaining_comma_list`), and statements stay apart where the gaps that are printed keep them apart
(`remaining_statements`).
-/

namespace Codemod

def Node.items (node : Node) : List NodeId :=
  node.shape.children.map Prod.snd

def Node.places (node : Node) : List Span :=
  node.layout.map Prod.snd

-- The items that are not removed, with their numbers in the whole list.
def Node.remaining (node : Node) (removed : List NodeId) : List (NodeId × Nat) :=
  node.items.zipIdx.filter fun item => item.1 ∉ removed

def Node.separator (source : String) (node : Node) : String :=
  Tree.separator source node.shape.kind
    (Text.lineIndent source (node.places.head?.elim 0 Span.start)) node.places

abbrev Node.Spaced (source : String) (node : Node) (before after : NodeId × Nat) (gap : String) :
    Prop :=
  gap = Text.spacing source node.places (node.separator source) before.2 after.2

/-- Between two items, by their numbers, there are only gaps made of blanks, none of them empty. -/
def Node.Apart (source : String) (node : Node) (before after : Nat) : Prop :=
  ∀ number gap, before ≤ number → number < after →
    (Text.gaps source node.places)[number]? = some gap → gap ≠ "" ∧ Text.allBlank gap

theorem Node.map_fst_remaining (node : Node) (removed : List NodeId) :
    (node.remaining removed).map Prod.fst = node.items.filter fun item => item ∉ removed := by
  have filters := List.filter_map (p := fun item : NodeId => decide (item ∉ removed))
    (f := Prod.fst) (l := node.items.zipIdx)
  rw [List.zipIdx_map_fst] at filters
  exact filters.symm

theorem Node.Thinned.items {node left : Node} {removed : List NodeId}
    (thinned : node.Thinned removed left) : left.items = (node.remaining removed).map Prod.fst := by
  rw [Node.map_fst_remaining, Node.items, thinned.children, Node.items, List.filter_map]
  rfl

namespace Tree

variable {tree after : Tree} {source : String} {options : PrintOptions} {id : NodeId} {node : Node}
variable {span : Span} {removed : List NodeId} {fits : Span → List Span → Prop}

theorem arity_of_list {shape : Shape} (list : isListKind shape.kind) :
    ∀ child ∈ shape.children, child.1.arity ≠ .required := by
  intro child member
  cases shape <;> try cases list
  all_goals
    obtain ⟨id, _, rfl⟩ := List.mem_map.mp member
    simp [Slot.arity]

theorem AsRead.spans (read : tree.AsRead fits id node) :
    node.items.map tree.span? = node.places.map some := by
  simpa [Node.items, Node.places, Function.comp_def] using congrArg (List.map Prod.snd) read.places

/-- An item that was read stands at the place with its number. -/
theorem AsRead.place (read : tree.AsRead fits id node) {number : Nat} {item : NodeId}
    (numbered : node.items[number]? = some item) :
    ∃ place, node.places[number]? = some place ∧ tree.span? item = some place := by
  have same := congrArg (fun list => list[number]?) read.spans
  simp only [List.getElem?_map, numbered, Option.map_some] at same
  obtain ⟨place, here, spanned⟩ := Option.map_eq_some_iff.mp same.symm
  exact ⟨place, here, spanned.symm⟩

theorem AsRead.length (read : tree.AsRead fits id node) :
    node.items.length = node.places.length := by
  simpa using congrArg List.length read.spans

/-- The first node, which was not read, has no span. -/
theorem Fresh.later (fresh : tree.Fresh fits source) (found : tree.node? id = some node)
    (spanned : node.span = some span) : id ≠ ⟨0⟩ := by
  rintro rfl
  rw [fresh.first] at found
  cases found
  cases spanned

section

variable (fresh : tree.Fresh (fun _ _ => True) source) (found : tree.node? id = some node)
variable (later : id ≠ ⟨0⟩) (thinned : tree.Thinned id removed after)

include fresh found later thinned

theorem remaining_inPlace {item : NodeId × Nat} (member : item ∈ node.remaining removed) :
    ∃ place, node.places[item.2]? = some place ∧ after.InPlace item.1 place
      ∧ after.ownText item.1 = tree.ownText item.1 := by
  have read := fresh.node found later
  have numbered : node.items[item.2]? = some item.1 :=
    List.mem_zipIdx_iff_getElem?.mp (List.mem_of_mem_filter member)
  obtain ⟨place, here, spanned⟩ := read.place numbered
  obtain ⟨child, held, same⟩ := List.mem_map.mp (List.mem_of_getElem? numbered)
  rw [← children_of_node? found] at held
  have early : item.1.index < id.index := same ▸ fresh.older held
  have bare := thinned.others fun same => Nat.lt_irrefl _ (same ▸ early)
  have stays : after.span? item.1 = some place := (span?_of_bare bare).trans spanned
  have reached : tree.Reaches item.1 :=
    same ▸ .child (fresh.reaches (contains_of_node? found) later) held
  have inside : item.1.index < tree.size := by
    rw [← same]
    exact contains_iff.mp (contains_of_parent? (fresh.named held))
  have pristine : after.isPristine item.1 := by
    rw [isPristine, thinned.pristineTo fresh.older early, thinned.size]
    exact fresh.intact.pristineTo reached inside
  refine ⟨place, here, ⟨stays, pristine⟩, ?_⟩
  rw [ownText_of_span? stays, ownText_of_span? spanned, thinned.source]

end

/-- A list that was read prints as its text, which is woven from its items. -/
theorem printTo_read (fresh : tree.Fresh (fun _ _ => True) source) (found : tree.node? id = some node)
    (later : id ≠ ⟨0⟩) (spanned : node.span = some span) (depth : Nat) (base : String) :
    tree.printTo options (depth + 1) id base = .ok (Text.slice source span.start span.stop) := by
  have reached := fresh.reaches (contains_of_node? found) later
  have inside : id.index < tree.size := contains_iff.mp (contains_of_node? found)
  have stands : tree.InPlace id span := by
    refine ⟨?_, fresh.intact.pristineTo reached inside⟩
    rw [span?, found, Option.bind_some, spanned]
  rw [printTo_inPlace stands, fresh.text]

theorem woven_read (text : tree.source = source) (read : tree.AsRead fits id node)
    (laid : Text.Laid source span node.places) (filled : node.items ≠ []) :
    ∃ inner, Text.slice source span.start span.stop
        = Text.front source span node.places ++ inner ++ Text.back source span node.places
      ∧ Text.Woven (fun item => tree.ownText item.1) (node.Spaced source) node.items.zipIdx inner := by
  let place (item : NodeId) : Span := (tree.span? item).getD ⟨0, 0⟩
  have stand : node.items.map place = node.places := by
    have values := congrArg (List.map fun span => span.getD ⟨0, 0⟩) read.spans
    simpa [Function.comp_def, place] using values
  obtain ⟨first, rest, items⟩ := List.exists_cons_of_ne_nil filled
  obtain ⟨last, ends⟩ := Option.ne_none_iff_exists'.mp
    (List.getLast?_eq_none_iff.not.mpr filled)
  rw [items] at ends stand ⊢
  have woven := laid.woven place 0 stand ends
  refine ⟨_, ?_, woven.congr (fun item member => ?_) fun before _ next _ gap stands => ?_⟩
  · have closes : node.places.getLast? = some (place last) := by
      rw [← stand, List.getLast?_map, ends, Option.map_some]
    exact laid.slice_eq (by rw [← stand]; rfl) closes
  · obtain ⟨here, _, spanned⟩ := read.place (List.mem_zipIdx_iff_getElem?.mp (items ▸ member))
    rw [ownText_of_span? spanned, text]
    simp [place, spanned]
  · rw [Node.Spaced, Text.spacing, if_pos stands.1, stands.2, Option.getD_some]

/-- A list from which items were removed prints between its ends what remains. -/
theorem printTo_remaining (fresh : tree.Fresh (fun _ _ => True) source)
    (found : tree.node? id = some node) (later : id ≠ ⟨0⟩) (spanned : node.span = some span)
    (list : isListKind node.shape.kind) (nodup : node.places.Nodup)
    (thinned : tree.Thinned id removed after) (fewer : ∃ item ∈ node.items, item ∈ removed)
    (depth : Nat) (base : String) :
    (node.remaining removed = [] → after.printTo options (depth + 2) id base
        = .ok (Text.trimEnd (Text.front source span node.places)
          ++ Text.back source span node.places))
      ∧ (node.remaining removed ≠ [] → ∃ inner, after.printTo options (depth + 2) id base
          = .ok (Text.front source span node.places ++ inner ++ Text.back source span node.places)
        ∧ Text.Woven (fun item => tree.ownText item.1) (node.Spaced source)
          (node.remaining removed) inner) := by
  have read := fresh.node found later
  obtain ⟨left, there, thinner⟩ := thinned.remains found
  have lengths : node.items.length = node.layout.length := by
    simpa [Node.places] using read.length
  have resized : left.shape.children.length ≠ left.layout.length := by
    have short : (node.items.filter fun item => item ∉ removed).length < node.items.length := by
      obtain ⟨item, held, gone⟩ := fewer
      exact List.length_filter_lt_length_iff_exists.mpr ⟨item, held, by simpa using gone⟩
    have items : left.shape.children.length = left.items.length := by simp [Node.items]
    rw [items, thinner.items, Node.map_fst_remaining, thinner.layout, ← lengths]
    exact Nat.ne_of_lt short
  cases places : node.places with
  | nil =>
      -- Nothing could have been removed from an empty list.
      obtain ⟨item, held, _⟩ := fewer
      have none : node.items.length = 0 := by
        rw [lengths, ← List.length_map (f := Prod.snd), ← Node.places, places, List.length_nil]
      simp [List.length_eq_zero_iff.mp none] at held
  | cons first rest =>
      have layout : left.layout.map Prod.snd = first :: rest := by
        rw [thinner.layout, ← places, Node.places]
      have prints := printTo_resized options there (thinner.span.trans spanned)
        (thinner.touched.trans read.untouched) (thinner.kind ▸ list) layout resized (depth + 1) base
      have text : after.source = source := thinned.source.trans fresh.text
      constructor
      · intro none
        have gone : left.shape.children = [] := by
          simpa [Node.items, none] using thinner.items
        rw [prints, printResized_empty _ gone, text]
      · intro remain
        have numbered : after.Numbered (first :: rest) (node.remaining removed) := by
          intro item member
          obtain ⟨place, here, inPlace, _⟩ := remaining_inPlace fresh found later thinned member
          exact ⟨place, places ▸ here, inPlace⟩
        obtain ⟨inner, printed, woven⟩ :=
          printResized_woven (places ▸ nodup) depth numbered remain thinner.items
        refine ⟨inner, by rw [prints, printed, text], ?_⟩
        refine woven.congr (fun item member => ?_) fun before _ next _ gap stands => ?_
        · obtain ⟨_, _, _, own⟩ := remaining_inPlace fresh found later thinned member
          exact own.symm
        · rw [Spaced, text, thinner.kind] at stands
          rw [Node.Spaced, Node.separator, places]
          exact stands

section

variable {program : List Php.Statement} (found : (ofProgram source program).node? id = some node)
variable (spanned : node.span = some span) (list : isListKind node.shape.kind)
variable (laid : Text.Laid source span node.places) (nodup : node.places.Nodup)
variable (distinct : removed.Nodup) (among : ∀ item ∈ removed, item ∈ node.items)

include found spanned list laid nodup distinct among

/-- Any items can be removed from a list of a program, and the list prints what remains. -/
theorem remove_printed :
    ∃ after, (removed.forM Edit.remove).run (ofProgram source program) = (.ok (), after)
      ∧ ∀ options depth base, ∃ text, after.printTo options (depth + 2) id base = .ok text
        ∧ (node.items = [] → text = Text.slice source span.start span.stop)
        ∧ (node.items ≠ [] → node.remaining removed = [] →
          text = Text.trimEnd (Text.front source span node.places)
            ++ Text.back source span node.places)
        ∧ (node.remaining removed ≠ [] → ∃ inner,
          text = Text.front source span node.places ++ inner ++ Text.back source span node.places
            ∧ Text.Woven (fun item => (ofProgram source program).ownText item.1)
              (node.Spaced source) (node.remaining removed) inner) := by
  have fresh := ofProgram_read source program
  have later := fresh.later found spanned
  have held : ∀ item ∈ removed, ∃ slot, (slot, item) ∈ (ofProgram source program).children id
      ∧ slot.arity ≠ .required := by
    intro item member
    obtain ⟨child, held, rfl⟩ := List.mem_map.mp (among item member)
    have free := arity_of_list list child held
    rw [← children_of_node? found] at held
    exact ⟨child.1, held, free⟩
  obtain ⟨after, removes, thinned⟩ :=
    forM_remove_thins ⟨(fresh.holds id).named, (fresh.holds id).nodup⟩ distinct held
  refine ⟨after, removes, fun options depth base => ?_⟩
  -- With nothing removed the node is as it was read, and prints as its source.
  cases removed with
  | nil =>
      cases removes
      have all : node.remaining [] = node.items.zipIdx := List.filter_eq_self.mpr (by simp)
      refine ⟨_, printTo_read fresh found later spanned (depth + 1) base, fun _ => rfl, ?_, ?_⟩
      · intro filled none
        exact absurd (by simpa [all] using none) filled
      · intro remain
        rw [all] at remain ⊢
        exact woven_read fresh.text (fresh.node found later) laid (by simpa using remain)
  | cons item rest =>
      have filled : node.items ≠ [] := List.ne_nil_of_mem (among item List.mem_cons_self)
      obtain ⟨bare, woven⟩ := printTo_remaining fresh found later spanned list
        nodup thinned ⟨item, among item List.mem_cons_self, List.mem_cons_self⟩ depth base
      by_cases none : node.remaining (item :: rest) = []
      · exact ⟨_, bare none, fun empty => absurd empty filled, fun _ _ => rfl,
          fun remain => absurd none remain⟩
      · obtain ⟨inner, printed, weave⟩ := woven none
        exact ⟨_, printed, fun empty => absurd empty filled, fun _ gone => absurd gone none,
          fun _ => ⟨inner, rfl, weave⟩⟩

end

theorem remaining_eq_nil_iff : node.remaining removed = [] ↔ ∀ item ∈ node.items, item ∈ removed := by
  rw [← List.map_eq_nil_iff (f := Prod.fst), Node.map_fst_remaining, List.filter_eq_nil_iff]
  simp

/-- In a comma list every gap that is printed has its comma. -/
theorem comma_of_spaced (list : node.shape.kind = .argumentList ∨ node.shape.kind = .array)
    (commas : ∀ gap ∈ Text.gaps source node.places, Text.ink gap = [','])
    {first second : NodeId × Nat} {gap : String} (spaced : node.Spaced source first second gap) :
    Text.ink gap = [','] := by
  have separator : Text.ink (node.separator source) = [','] := by
    refine separator_comma ?_ _ commas
    rcases list with kind | kind <;> simp [kind]
  rw [spaced, Text.spacing]
  split
  · cases read : (Text.gaps source node.places)[first.2]? with
    | some between => exact commas between (List.mem_of_getElem? read)
    | none => exact separator
  · exact separator

theorem comma_texts (list : node.shape.kind = .argumentList ∨ node.shape.kind = .array)
    (commas : ∀ gap ∈ Text.gaps source node.places, Text.ink gap = [',']) {inner : String}
    (woven : Text.Woven (fun item => tree.ownText item.1) (node.Spaced source)
      (node.remaining removed) inner) :
    Text.Woven (fun text => text) (fun _ _ gap => Text.ink gap = [','])
      ((node.items.filter fun item => item ∉ removed).map tree.ownText) inner := by
  have names : (node.remaining removed).map (fun item => tree.ownText item.1)
      = (node.items.filter fun item => item ∉ removed).map tree.ownText := by
    rw [← Node.map_fst_remaining, List.map_map]
    rfl
  rw [← names]
  exact woven.map _ (fun _ _ => rfl) fun _ _ _ _ _ => comma_of_spaced list commas

/-- Whatever items are removed from a comma list, and in whatever order, it prints as a comma list of
the texts of those that are left, unless none is left and the list had a comma behind its last item:
that comma stays. -/
theorem remaining_comma_list {program : List Php.Statement}
    (found : (ofProgram source program).node? id = some node)
    (list : node.shape.kind = .argumentList ∨ node.shape.kind = .array)
    (spanned : node.span = some span) {opening lead trail closing : String}
    (spelled : Text.CommaPlaces source span node.places opening lead trail closing)
    (distinct : removed.Nodup) (among : ∀ item ∈ removed, item ∈ node.items) :
    ∃ after, (removed.forM Edit.remove).run (ofProgram source program) = (.ok (), after)
      ∧ ∀ options depth base, ∃ text, after.printTo options (depth + 2) id base = .ok text
        ∧ (Text.CommaList opening closing
            ((node.items.filter fun item => item ∉ removed).map (ofProgram source program).ownText)
            text
          ↔ (∃ item ∈ node.items, item ∉ removed) ∨ Text.ink trail = [])
        ∧ ((∀ item ∈ node.items, item ∈ removed) → node.items ≠ [] →
          text = opening ++ trail ++ closing) := by
  have listKind : isListKind node.shape.kind := by
    rcases list with kind | kind <;> rw [kind] <;> rfl
  obtain ⟨after, removes, prints⟩ :=
    remove_printed found spanned listKind spelled.laid spelled.nodup distinct among
  refine ⟨after, removes, fun options depth base => ?_⟩
  obtain ⟨text, printed, whole, bare, woven⟩ := prints options depth base
  refine ⟨text, printed, ?_⟩
  have fresh := ofProgram_read source program
  have length := (fresh.node found (fresh.later found spanned)).length
  by_cases left : ∃ item ∈ node.items, item ∉ removed
  · obtain ⟨item, member, stays⟩ := left
    have placed : node.places ≠ [] := by
      rw [← List.length_pos_iff, ← length]
      exact List.length_pos_of_mem member
    have remain : node.remaining removed ≠ [] := fun none =>
      stays (remaining_eq_nil_iff.mp none item member)
    obtain ⟨inner, rfl, weave⟩ := woven remain
    have texts := comma_texts list spelled.commas weave
    exact ⟨⟨fun _ => Or.inl ⟨item, member, stays⟩, fun _ => spelled.commaList placed texts⟩,
      fun all => absurd (all item member) stays⟩
  · -- Without items the brackets are left, and what stood before the closing one.
    have gone : ∀ item ∈ node.items, item ∈ removed := by simpa using left
    have nothing : (node.items.filter fun item => item ∉ removed) = [] := by simpa using gone
    rw [nothing, List.map_nil, or_iff_right left]
    by_cases empty : node.items = []
    · have placeless : node.places = [] := by
        rw [← List.length_eq_zero_iff, ← length, empty, List.length_nil]
      have blank : Text.ink trail = [] := by simpa [placeless] using spelled.after
      refine ⟨?_, fun _ filled => absurd empty filled⟩
      rw [whole empty, spelled.whole placeless,
        Text.commaList_nil_iff, Text.ink_append, spelled.before, List.nil_append]
    · have placed : node.places ≠ [] := by
        rw [← List.length_pos_iff, ← length]
        exact List.length_pos_iff.mpr empty
      have text := (bare empty (remaining_eq_nil_iff.mpr gone)).trans (spelled.bare placed)
      exact ⟨text ▸ Text.commaList_nil_iff, fun _ _ => text⟩

def threeArguments : List Php.Statement :=
  (Php.program "<?php f($a, $b, $c,);").toOption.getD []

/-- The second of three arguments is removed, and the comma behind the last one stays. -/
theorem remaining_comma_list_two :
    ∃ after, ([⟨6⟩].forM Edit.remove).run (ofProgram "<?php f($a, $b, $c,);" threeArguments)
        = (.ok (), after)
      ∧ ∀ options depth base, ∃ text, after.printTo options (depth + 2) ⟨9⟩ base = .ok text
        ∧ Text.CommaList "(" ")" ["$a", "$c"] text := by
  have facts : ((ofProgram "<?php f($a, $b, $c,);" threeArguments).node? ⟨9⟩).map (fun node =>
        (node.span, node.shape.kind, node.items, node.places))
          = some (some ⟨7, 20⟩, .argumentList, [⟨4⟩, ⟨6⟩, ⟨8⟩], [⟨8, 10⟩, ⟨12, 14⟩, ⟨16, 18⟩])
      ∧ [⟨4⟩, ⟨8⟩].map (ofProgram "<?php f($a, $b, $c,);" threeArguments).ownText = ["$a", "$c"]
      ∧ Text.CommaPlaces "<?php f($a, $b, $c,);" ⟨7, 20⟩ [⟨8, 10⟩, ⟨12, 14⟩, ⟨16, 18⟩]
        "(" "" "," ")" := by
    decide +kernel
  obtain ⟨read, texts, spelled⟩ := facts
  obtain ⟨node, found, same⟩ := Option.map_eq_some_iff.mp read
  simp only [Prod.mk.injEq] at same
  obtain ⟨spanned, kind, items, places⟩ := same
  have among : ∀ item ∈ [(⟨6⟩ : NodeId)], item ∈ node.items := by
    rw [items]
    decide
  have stays : ∃ item ∈ node.items, item ∉ [(⟨6⟩ : NodeId)] := by
    rw [items]
    decide
  have kept : (node.items.filter fun item => item ∉ [(⟨6⟩ : NodeId)]) = [⟨4⟩, ⟨8⟩] := by
    rw [items]
    decide
  obtain ⟨after, removes, prints⟩ :=
    remaining_comma_list found (Or.inl kind) spanned (places ▸ spelled) (by decide) among
  refine ⟨after, removes, fun options depth base => ?_⟩
  obtain ⟨text, printed, listed, _⟩ := prints options depth base
  rw [kept, texts] at listed
  exact ⟨text, printed, listed.mpr (Or.inl stays)⟩

def lastComma : List Php.Statement :=
  (Php.program "<?php f($a,);").toOption.getD []

-- The same call with its only argument removed.
def argumentless : Except Fault Unit × Tree :=
  ([⟨4⟩].forM Edit.remove).run (ofProgram "<?php f($a,);" lastComma)

/-- With the only argument removed the comma behind it is all there is between the parentheses. -/
theorem comma_without_items :
    (∃ node, (ofProgram "<?php f($a,);" lastComma).node? ⟨5⟩ = some node
        ∧ node.span = some ⟨7, 12⟩ ∧ node.shape.kind = .argumentList ∧ node.items = [⟨4⟩]
        ∧ Text.CommaPlaces "<?php f($a,);" ⟨7, 12⟩ node.places "(" "" "," ")")
      ∧ argumentless.1 = .ok ()
      ∧ (argumentless.2.printTo {} 2 ⟨5⟩ "").toOption = some "(,)"
      ∧ (argumentless.2.print {}).toOption = some "<?php f(,);"
      ∧ ¬ Text.CommaList "(" ")" [] "(,)" := by
  have facts : ((ofProgram "<?php f($a,);" lastComma).node? ⟨5⟩).map (fun node =>
        (node.span, node.shape.kind, node.items, node.places))
          = some (some ⟨7, 12⟩, .argumentList, [⟨4⟩], [⟨8, 10⟩])
      ∧ Text.CommaPlaces "<?php f($a,);" ⟨7, 12⟩ [⟨8, 10⟩] "(" "" "," ")"
      ∧ argumentless.1 = .ok ()
      ∧ (argumentless.2.printTo {} 2 ⟨5⟩ "").toOption = some "(,)"
      ∧ (argumentless.2.print {}).toOption = some "<?php f(,);" := by
    decide +kernel
  obtain ⟨read, spelled, removes, list, printed⟩ := facts
  refine ⟨?_, removes, list, printed, ?_⟩
  · obtain ⟨node, found, same⟩ := Option.map_eq_some_iff.mp read
    simp only [Prod.mk.injEq] at same
    obtain ⟨spanned, kind, items, places⟩ := same
    exact ⟨node, found, spanned, kind, items, places ▸ spelled⟩
  · intro listed
    have comma : Text.ink "," = [] := Text.commaList_nil_iff.mp listed
    exact absurd comma (by decide)

theorem blank_of_spaced (list : node.shape.kind = .program ∨ node.shape.kind = .block)
    {first second : NodeId × Nat} {gap : String} (spaced : node.Spaced source first second gap)
    (apart : node.Apart source first.2 second.2)
    (inside : second.2 < node.places.length)
    (plain : second.2 = first.2 + 1 ∨ ∀ between,
      (Text.gaps source node.places).find? Text.plain = some between → Text.HasBlank between) :
    Text.HasBlank gap := by
  rw [spaced, Text.spacing]
  split
  · next follows =>
      have here : first.2 < node.places.length := by omega
      have read := Text.gaps_getElem? source node.places (List.getElem?_eq_getElem here)
        (List.getElem?_eq_getElem (follows ▸ inside))
      obtain ⟨filled, blank⟩ := apart first.2 _ (Nat.le_refl _) (by omega) read
      rw [read, Option.getD_some]
      exact Text.hasBlank_of_allBlank filled blank
  · next parted =>
      rw [Node.separator, separator_eq]
      cases found : (Text.gaps source node.places).find? Text.plain with
      | some between => exact plain.resolve_left parted between found
      | none =>
          rcases list with kind | kind <;>
            simp [kind, defaultSeparator, Text.HasBlank, Text.isBlank]

/-- Whatever statements are removed, as long as one is left, the others are printed in order, each
with its own text. Two that have come to stand next to one another, with nothing but blanks between
all statements on the way, are kept apart, unless the first gap of the list that has no comment in it
is empty: that gap is printed between statements that were no neighbours. -/
theorem remaining_statements {program : List Php.Statement}
    (found : (ofProgram source program).node? id = some node)
    (list : node.shape.kind = .program ∨ node.shape.kind = .block)
    (spanned : node.span = some span) (laid : Text.Laid source span node.places)
    (nodup : node.places.Nodup) (distinct : removed.Nodup)
    (among : ∀ item ∈ removed, item ∈ node.items) (left : ∃ item ∈ node.items, item ∉ removed) :
    ∃ after, (removed.forM Edit.remove).run (ofProgram source program) = (.ok (), after)
      ∧ ∀ options depth base, ∃ inner,
        after.printTo options (depth + 2) id base
            = .ok (Text.front source span node.places ++ inner ++ Text.back source span node.places)
          ∧ Text.Woven (fun item => (ofProgram source program).ownText item.1)
            (fun before next gap => node.Spaced source before next gap
              ∧ (node.Apart source before.2 next.2 →
                (next.2 = before.2 + 1 ∨ ∀ between,
                  (Text.gaps source node.places).find? Text.plain = some between →
                    Text.HasBlank between) → Text.HasBlank gap))
            (node.remaining removed) inner := by
  have listKind : isListKind node.shape.kind := by
    rcases list with kind | kind <;> rw [kind] <;> rfl
  have fresh := ofProgram_read source program
  have read := fresh.node found (fresh.later found spanned)
  obtain ⟨item, member, stays⟩ := left
  have remain : node.remaining removed ≠ [] := fun none =>
    stays (remaining_eq_nil_iff.mp none item member)
  obtain ⟨after, removes, prints⟩ :=
    remove_printed found spanned listKind laid nodup distinct among
  refine ⟨after, removes, fun options depth base => ?_⟩
  obtain ⟨text, printed, _, _, woven⟩ := prints options depth base
  obtain ⟨inner, rfl, weave⟩ := woven remain
  refine ⟨inner, printed, weave.congr (fun _ _ => rfl) fun before _ next late gap spaced => ?_⟩
  obtain ⟨place, here, _⟩ := read.place
    (List.mem_zipIdx_iff_getElem?.mp (List.mem_of_mem_filter late))
  have inside : next.2 < node.places.length := (List.getElem?_eq_some_iff.mp here).1
  exact ⟨spaced, fun apart plain => blank_of_spaced list spaced apart inside plain⟩

def threeCalls : List Php.Statement :=
  (Php.program "<?php a(); b(); c();").toOption.getD []

/-- The second of three calls is removed, and the others are kept apart. -/
theorem remaining_statements_two :
    ∃ after, ([⟨9⟩].forM Edit.remove).run (ofProgram "<?php a(); b(); c();" threeCalls)
        = (.ok (), after)
      ∧ ∀ options depth base, ∃ inner,
        after.printTo options (depth + 2) ⟨14⟩ base = .ok inner
          ∧ Text.Woven (fun text => text) (fun _ _ gap => Text.HasBlank gap)
            ["<?php", "a();", "c();"] inner := by
  have facts : ((ofProgram "<?php a(); b(); c();" threeCalls).node? ⟨14⟩).map (fun node =>
        (node.span, node.shape.kind, node.items, node.places))
          = some (some ⟨0, 20⟩, .program, [⟨1⟩, ⟨5⟩, ⟨9⟩, ⟨13⟩],
            [⟨0, 5⟩, ⟨6, 10⟩, ⟨11, 15⟩, ⟨16, 20⟩])
      ∧ [(⟨1⟩, 0), (⟨5⟩, 1), (⟨13⟩, 3)].map (fun item : NodeId × Nat =>
        (ofProgram "<?php a(); b(); c();" threeCalls).ownText item.1) = ["<?php", "a();", "c();"] := by
    decide +kernel
  obtain ⟨read, texts⟩ := facts
  obtain ⟨node, found, same⟩ := Option.map_eq_some_iff.mp read
  simp only [Prod.mk.injEq] at same
  obtain ⟨spanned, kind, items, places⟩ := same
  have laid : Text.Laid "<?php a(); b(); c();" ⟨0, 20⟩ node.places := by
    rw [places]
    decide +kernel
  have nodup : node.places.Nodup := by
    rw [places]
    decide
  have among : ∀ item ∈ [(⟨9⟩ : NodeId)], item ∈ node.items := by
    rw [items]
    decide
  have left : ∃ item ∈ node.items, item ∉ [(⟨9⟩ : NodeId)] := by
    rw [items]
    decide
  have blank : ∀ gap ∈ Text.gaps "<?php a(); b(); c();" node.places, gap = " " := by
    rw [places]
    decide +kernel
  have ends : Text.front "<?php a(); b(); c();" ⟨0, 20⟩ node.places = ""
      ∧ Text.back "<?php a(); b(); c();" ⟨0, 20⟩ node.places = "" := by
    rw [places]
    decide +kernel
  have remain : node.remaining [⟨9⟩] = [(⟨1⟩, 0), (⟨5⟩, 1), (⟨13⟩, 3)] := by
    rw [Node.remaining, items]
    decide
  obtain ⟨after, removes, prints⟩ := remaining_statements found (Or.inl kind) spanned laid nodup
    (by decide) among left
  refine ⟨after, removes, fun options depth base => ?_⟩
  obtain ⟨inner, printed, woven⟩ := prints options depth base
  rw [ends.1, ends.2, String.empty_append, String.append_empty] at printed
  rw [remain] at woven
  refine ⟨inner, printed, ?_⟩
  rw [← texts]
  refine woven.map _ (fun _ _ => rfl) fun before _ next _ gap stands => stands.2 ?_ (Or.inr ?_)
  · intro number gap _ _ here
    rw [blank gap (List.mem_of_getElem? here)]
    decide
  · intro between first
    rw [blank between (List.mem_of_find?_eq_some first)]
    decide

def afterMarkup : List Php.Statement :=
  (Php.program "hi<?php a(); b();").toOption.getD []

-- The same statements without the first call.
def callless : Except Fault Unit × Tree :=
  ([⟨6⟩].forM Edit.remove).run (ofProgram "hi<?php a(); b();" afterMarkup)

/-- The gap between the markup and the opening tag is empty, so that the tag and the second call run
into one another, although there were blanks on both sides of the first. -/
theorem statements_run_together :
    (∃ node, (ofProgram "hi<?php a(); b();" afterMarkup).node? ⟨11⟩ = some node
        ∧ node.shape.kind = .program ∧ node.items = [⟨1⟩, ⟨2⟩, ⟨6⟩, ⟨10⟩]
        ∧ Text.gaps "hi<?php a(); b();" node.places = ["", " ", " "]
        ∧ node.Apart "hi<?php a(); b();" 1 3)
      ∧ callless.1 = .ok ()
      ∧ (callless.2.print {}).toOption = some "hi<?phpb();"
      ∧ ¬ Text.HasBlank "hi<?phpb();" := by
  have facts : ((ofProgram "hi<?php a(); b();" afterMarkup).node? ⟨11⟩).map (fun node =>
        (node.shape.kind, node.items, Text.gaps "hi<?php a(); b();" node.places))
          = some (.program, [⟨1⟩, ⟨2⟩, ⟨6⟩, ⟨10⟩], ["", " ", " "])
      ∧ callless.1 = .ok () ∧ (callless.2.print {}).toOption = some "hi<?phpb();" := by
    decide +kernel
  obtain ⟨read, removes, printed⟩ := facts
  refine ⟨?_, removes, printed, by decide⟩
  obtain ⟨node, found, same⟩ := Option.map_eq_some_iff.mp read
  simp only [Prod.mk.injEq] at same
  obtain ⟨kind, items, gaps⟩ := same
  refine ⟨node, found, kind, items, gaps, fun number gap above below here => ?_⟩
  have blank : gap = " " := by
    obtain rfl | rfl : number = 1 ∨ number = 2 := by omega
    · simpa [gaps] using here.symm
    · simpa [gaps] using here.symm
  rw [blank]
  decide

end Tree

end Codemod
