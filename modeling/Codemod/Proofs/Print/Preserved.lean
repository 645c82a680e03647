import Codemod.Proofs.Print.Depth
import Codemod.Proofs.Print.Success

/-!
Formatting that is kept. A node whose slots are as they were read prints as its source text with the
texts of its children put in at their places. The printer comes to this in three ways: it copies a
subtree that is untouched, it passes over children that are untouched and in place, and it splices the
texts of the others; all three copy every byte outside the places.
-/

namespace Codemod

open PrintError

namespace Tree

variable {tree : Tree} {options : PrintOptions}

-- The node stands where it was read, with everything below it untouched.
def InPlace (tree : Tree) (id : NodeId) (place : Span) : Prop :=
  tree.span? id = some place ∧ tree.isPristine id

/-- Parentheses go around the child: a method is called on a creation that is not as it was read. -/
def Enclosed (tree : Tree) (parent : NodeId) (child : Slot × NodeId) (place : Span) : Prop :=
  child.1 = .object ∧ tree.kind? parent = some .methodCall ∧ tree.kind? child.2 = some .new
    ∧ ¬ tree.InPlace child.2 place

instance (tree : Tree) (id : NodeId) (place : Span) : Decidable (tree.InPlace id place) :=
  inferInstanceAs (Decidable (_ ∧ _))

instance (tree : Tree) (parent : NodeId) (child : Slot × NodeId) (place : Span) :
    Decidable (tree.Enclosed parent child place) :=
  inferInstanceAs (Decidable (_ ∧ _ ∧ _ ∧ _))

/-- The text for a child at its place: the child, printed from the indentation of the line of the
place, in its parentheses. -/
def piece (tree : Tree) (options : PrintOptions) (parent : NodeId)
    (pair : (Slot × NodeId) × (Slot × Span)) : Except PrintError Replacement := do
  let place := pair.2.2
  let text ← tree.printTo options tree.size pair.1.2 (Text.lineIndent tree.source place.start)
  return ⟨place, if tree.Enclosed parent pair.1 place then "(" ++ text ++ ")" else text⟩

theorem pristineTo_mono {depth deeper : Nat} (deep : depth ≤ deeper) {id : NodeId}
    (pristine : tree.pristineTo depth id) : tree.pristineTo deeper id := by
  induction depth generalizing deeper id with
  | zero => cases pristine
  | succ depth ih =>
      cases deeper with
      | zero => omega
      | succ deeper =>
          rw [pristineTo] at pristine ⊢
          cases found : tree.node? id with
          | none => simp [found] at pristine
          | some node =>
              simp only [found, Bool.and_eq_true, List.all_eq_true] at pristine ⊢
              refine ⟨pristine.1, fun pair member => ?_⟩
              obtain ⟨seated, below⟩ := pristine.2 pair member
              exact ⟨seated, ih (Nat.le_of_succ_le_succ deep) below⟩

theorem isPristine_children {id : NodeId} {node : Node} (found : tree.node? id = some node)
    (pristine : tree.isPristine id) :
    ∀ pair ∈ node.shape.children.zip node.layout, tree.InPlace pair.1.2 pair.2.2 := by
  have inside : id.index < tree.size := (Array.getElem?_eq_some_iff.mp found).1
  obtain ⟨depth, size⟩ : ∃ depth, tree.size = depth + 1 := ⟨tree.size - 1, by omega⟩
  rw [isPristine, size, pristineTo] at pristine
  simp only [found, Bool.and_eq_true, List.all_eq_true, beq_iff_eq] at pristine
  intro pair member
  obtain ⟨⟨_, spanned⟩, below⟩ := pristine.2 pair member
  exact ⟨spanned, pristineTo_mono (by omega) below⟩

theorem printTo_inPlace {id : NodeId} {place : Span} (inPlace : tree.InPlace id place) (depth : Nat)
    (base : String) :
    tree.printTo options (depth + 1) id base
      = .ok (Text.slice tree.source place.start place.stop) := by
  obtain ⟨spanned, pristine⟩ := inPlace
  obtain ⟨node, found, span⟩ := Option.bind_eq_some_iff.mp spanned
  simp only [printTo, printNode, found, span, if_pos pristine]
  rfl

/-- Side by side with as many children, the places stand in the order of the layout. -/
theorem zip_layout_places {node : Node}
    (lengths : node.shape.children.length = node.layout.length) :
    (node.shape.children.zip node.layout).map (fun pair => pair.2.2) = node.layout.map Prod.snd := by
  have seconds : (node.shape.children.zip node.layout).map Prod.snd = node.layout :=
    List.map_snd_zip (Nat.le_of_eq lengths.symm)
  calc
    _ = ((node.shape.children.zip node.layout).map Prod.snd).map Prod.snd := by
      rw [List.map_map]
      rfl
    _ = node.layout.map Prod.snd := by rw [seconds]

/-- The children that are passed over would have been printed as they stand. -/
theorem childReplacements_interleave {print : NodeId → String → Except PrintError String}
    (id : NodeId) {pairs : List ((Slot × NodeId) × (Slot × Span))}
    (each : ∀ pair ∈ pairs, ∃ text,
      print pair.1.2 (Text.lineIndent tree.source pair.2.2.start) = .ok text
        ∧ tree.printTo options tree.size pair.1.2 (Text.lineIndent tree.source pair.2.2.start)
          = .ok text
        ∧ (tree.InPlace pair.1.2 pair.2.2 →
          text = Text.slice tree.source pair.2.2.start pair.2.2.stop)) :
    ∃ edits pieces, tree.childReplacements print id pairs = .ok edits
      ∧ pairs.mapM (tree.piece options id) = .ok pieces
      ∧ pieces.map Replacement.span = pairs.map (fun pair => pair.2.2)
      ∧ ((∀ pair ∈ pairs, tree.InPlace pair.1.2 pair.2.2) → edits = [])
      ∧ ∀ window : Span, Text.Laid tree.source window (pieces.map Replacement.span) →
        ∀ cursor, Text.Ahead tree.source cursor window.stop pieces →
          Text.interleaveFrom tree.source window.stop edits cursor
            = Text.interleaveFrom tree.source window.stop pieces cursor := by
  induction pairs with
  | nil => exact ⟨[], [], rfl, rfl, rfl, fun _ => rfl, fun _ _ _ _ => rfl⟩
  | cons pair rest ih =>
      obtain ⟨⟨slot, child⟩, ⟨former, place⟩⟩ := pair
      obtain ⟨⟨text, printed, whole, copied⟩, later⟩ := List.forall_mem_cons.mp each
      obtain ⟨edits, pieces, replaced, mapped, spans, kept, same⟩ := ih later
      dsimp only at printed whole copied
      rw [List.mapM_cons, piece]
      dsimp only
      rw [whole, childReplacements]
      by_cases inPlace : tree.InPlace child place
      · -- Nothing is put in here, and the piece is what stands here already.
        have plain : ¬ tree.Enclosed id (slot, child) place := fun enclosed => enclosed.2.2.2 inPlace
        have skips : (tree.span? child == some place && tree.isPristine child) = true := by
          rw [inPlace.1, inPlace.2]
          simp
        refine ⟨edits, ⟨place, text⟩ :: pieces, ?_, ?_, ?_, ?_, ?_⟩
        · rw [if_pos skips, replaced]
        · simp only [if_neg plain, bind_pure_comp, mapped]
          rfl
        · rw [List.map_cons, List.map_cons, spans]
        · exact fun all => kept (List.forall_mem_cons.mp all).2
        · intro window laid cursor ahead
          rw [Text.interleaveFrom_skip laid ahead (copied inPlace)]
          exact same window laid.tail cursor
            ⟨ahead.standing, ahead.inside, (List.forall_mem_cons.mp ahead.before).2⟩
      · have changed : ¬ (tree.span? child == some place && tree.isPristine child) = true := by
          intro skips
          simp only [Bool.and_eq_true, beq_iff_eq] at skips
          exact inPlace skips
        let around := if tree.Enclosed id (slot, child) place then "(" ++ text ++ ")" else text
        have shown : tree.printChild print id slot child (Text.lineIndent tree.source place.start)
            = .ok around := by
          rw [printChild, printed]
          simp only [around, Enclosed, inPlace, not_false_eq_true, and_true]
          exact (apply_ite _ _ _ _).symm
        refine ⟨⟨place, around⟩ :: edits, ⟨place, around⟩ :: pieces, ?_, ?_, ?_, ?_, ?_⟩
        · rw [if_neg changed, shown]
          simp only [replaced]
          rfl
        · simp only [bind_pure_comp, mapped]
          rfl
        · rw [List.map_cons, List.map_cons, spans]
        · exact fun all => absurd (all _ List.mem_cons_self) inPlace
        · intro window laid cursor ahead
          rw [Text.interleaveFrom, Text.interleaveFrom, same window laid.tail _ laid.aheadTail]

theorem sourced_of_print (sound : tree.Sound) {whole : String}
    (printed : tree.print options = .ok whole) :
    tree.HeldOnce ∧ ∀ id, tree.Reaches id → ¬ tree.Sourceless id := by
  by_cases held : tree.HeldOnce
  · have covers := print_covers sound held options
    rw [printed] at covers
    exact ⟨held, covers tree.root List.mem_cons_self⟩
  · obtain ⟨error, _, refused⟩ := print_refuses sound held options
    cases refused.symm.trans printed

/-- Children have the same texts wherever printing comes to them, and those that are in place have their
source. -/
theorem children_print (sound : tree.Sound) (held : tree.HeldOnce)
    (sourced : ∀ id, tree.Reaches id → ¬ tree.Sourceless id) {id : NodeId} {above : List NodeId}
    (path : tree.Path id above) {node : Node} (found : tree.node? id = some node) (filled : 0 < tree.size)
    {depth : Nat} (enough : tree.size ≤ depth + 1 + above.length) :
    ∀ pair ∈ node.shape.children.zip node.layout, ∃ text,
      tree.printTo options depth pair.1.2 (Text.lineIndent tree.source pair.2.2.start) = .ok text
        ∧ tree.printTo options tree.size pair.1.2 (Text.lineIndent tree.source pair.2.2.start)
          = .ok text
        ∧ (tree.InPlace pair.1.2 pair.2.2 →
          text = Text.slice tree.source pair.2.2.start pair.2.2.stop) := by
  intro pair member
  have child : (pair.1.1, pair.1.2) ∈ tree.children id := by
    rw [children_of_node? found]
    exact (List.of_mem_zip member).1
  obtain ⟨text, prints⟩ := printTo_stable sound held sourced (.child path child)
    (Text.lineIndent tree.source pair.2.2.start)
  have whole := prints tree.size (Nat.le_add_right ..)
  refine ⟨text, prints depth (by rw [List.length_cons]; omega), whole, fun inPlace => ?_⟩
  obtain ⟨less, size⟩ : ∃ less, tree.size = less + 1 := ⟨tree.size - 1, by omega⟩
  rw [size, printTo_inPlace inPlace] at whole
  exact (Except.ok.inj whole).symm

/-- A node that was read, is itself untouched and has its children in the slots they were read in
prints as its source with a piece for each child at the place of the child. -/
theorem printTo_pieces (sound : tree.Sound) (held : tree.HeldOnce)
    (sourced : ∀ id, tree.Reaches id → ¬ tree.Sourceless id) {id : NodeId} {above : List NodeId}
    (path : tree.Path id above) {node : Node} (found : tree.node? id = some node) {span : Span}
    (spanned : node.span = some span) (untouched : node.touched = false)
    (slots : node.shape.children.map Prod.fst = node.layout.map Prod.fst) :
    ∃ pieces, (node.shape.children.zip node.layout).mapM (tree.piece options id) = .ok pieces
      ∧ pieces.map Replacement.span = node.layout.map Prod.snd
      ∧ ∀ depth, tree.size ≤ depth + above.length → ∀ base,
        tree.printTo options depth id base
          = .ok (Text.interleave tree.source span pieces) := by
  have inside : id.index < tree.size := (Array.getElem?_eq_some_iff.mp found).1
  have short := length_le_size (path.nodup held) (path.inside held sound.rooted)
  rw [List.length_cons] at short
  have lengths : node.shape.children.length = node.layout.length := by
    simpa using congrArg List.length slots
  have places := zip_layout_places lengths
  have laid := (sound.nodes found span spanned).1
  have filled : 0 < tree.size := Nat.zero_lt_of_lt inside
  obtain ⟨_, pieces, _, mapped, spans, _, _⟩ := childReplacements_interleave id
    (children_print sound held sourced path found filled (by omega : _ ≤ tree.size + 1 + _))
  rw [places] at spans
  refine ⟨pieces, mapped, spans, fun depth enough base => ?_⟩
  cases depth with
  | zero => omega
  | succ depth =>
      -- To every depth that is left for the children they have the texts of their pieces.
      obtain ⟨edits, again, replaced, mappedAgain, _, kept, same⟩ :=
        childReplacements_interleave id (children_print sound held sourced path found filled enough)
      cases mapped.symm.trans mappedAgain
      have merged := same span (spans ▸ laid) span.start (Text.Laid.ahead (spans ▸ laid))
      simp only [printTo, printNode, found, spanned]
      split
      · next pristine =>
          rw [kept (isPristine_children found pristine)] at merged
          exact congrArg Except.ok merged
      · have around : (!node.touched
            && node.shape.children.map Prod.fst == node.layout.map Prod.fst) = true := by
          simp [untouched, slots]
        have fewer : Text.Laid tree.source span (edits.map Replacement.span) := by
          refine laid.sublist ?_
          rw [← places]
          exact childReplacements_spans replaced
        rw [if_pos around, printAround, replaced]
        simp only [bind, Except.bind, Text.splice_eq fewer]
        exact congrArg Except.ok merged

/-- Whatever was edited, if the tree prints, every node that was read, is untouched and has its slots
as they were read prints as its source text, with the text of each child in the place where a child
was read, and all bytes outside these places as they were. This is so to every depth at which printing
comes to the node, whatever the indentation, and whether or not the node is copied as a whole. -/
theorem print_around_children (history : History tree) {whole : String}
    (printed : tree.print options = .ok whole) {id : NodeId} (reached : tree.Reaches id) {node : Node}
    (found : tree.node? id = some node) {span : Span} (spanned : node.span = some span)
    (untouched : node.touched = false)
    (slots : node.shape.children.map Prod.fst = node.layout.map Prod.fst) :
    ∃ pieces, (node.shape.children.zip node.layout).mapM (tree.piece options id) = .ok pieces
      ∧ pieces.map Replacement.span = node.layout.map Prod.snd
      ∧ Text.Laid tree.source span (node.layout.map Prod.snd)
      ∧ (∀ base, tree.printTo options tree.size id base
        = .ok (Text.interleave tree.source span pieces))
      ∧ ∀ {above}, tree.Path id above → ∀ depth, tree.size ≤ depth + above.length → ∀ base,
        tree.printTo options depth id base = .ok (Text.interleave tree.source span pieces) := by
  have sound := history.kept.now
  obtain ⟨held, sourced⟩ := sourced_of_print sound printed
  have laid := (sound.nodes found span spanned).1
  obtain ⟨above, path, _⟩ := Path.down .root reached
  obtain ⟨pieces, mapped, spans, prints⟩ :=
    printTo_pieces sound held sourced path found spanned untouched slots
  refine ⟨pieces, mapped, spans, laid, prints tree.size (Nat.le_add_right ..), ?_⟩
  intro other otherPath depth enough base
  obtain ⟨again, mappedAgain, _, printsAgain⟩ :=
    printTo_pieces sound held sourced otherPath found spanned untouched slots
  cases mapped.symm.trans mappedAgain
  exact printsAgain depth enough base

-- The statement `new A(f())->m();`.
def creationProgram : List Php.Statement :=
  [.expression ⟨6, 22⟩ (.methodCall ⟨6, 21⟩
    (.instantiation ⟨6, 16⟩ (.identifier ⟨10, 11⟩) (some (.mk ⟨11, 16⟩
      [.positional ⟨12, 15⟩ false (.functionCall ⟨12, 15⟩ (.identifier ⟨12, 13⟩) (.mk ⟨13, 15⟩ []))])))
    (.identifier ⟨18, 19⟩) (.mk ⟨19, 21⟩ []) false)]

-- The same with another function called in the arguments of the creation.
def renamedCreation : Tree :=
  (Operation.setName ⟨2⟩ "h").after (Tree.ofProgram "<?php new A(f())->m();" creationProgram)

/-- The method call is as it was read, up to the creation in it, which is enclosed. -/
theorem print_around_creation : renamedCreation.History
    ∧ (renamedCreation.print {}).toOption = some "<?php (new A(h()))->m();"
    ∧ renamedCreation.Enclosed ⟨10⟩ (.object, ⟨7⟩) ⟨6, 16⟩
    ∧ renamedCreation.Reaches ⟨10⟩
    ∧ ∃ pieces, pieces.map Replacement.span = [⟨6, 16⟩, ⟨18, 19⟩, ⟨19, 21⟩]
      ∧ ∀ base, renamedCreation.printTo {} renamedCreation.size ⟨10⟩ base
        = .ok (Text.interleave "<?php new A(f())->m();" ⟨6, 21⟩ pieces) := by
  have history : renamedCreation.History := .edited _ (.parsed (by decide) (by decide))
  have printed : (renamedCreation.print {}).toOption = some "<?php (new A(h()))->m();" := by
    decide +kernel
  have source : renamedCreation.source = "<?php new A(f())->m();" := by decide +kernel
  have root : renamedCreation.root = ⟨12⟩ := by decide +kernel
  have statement : (Slot.statement, (⟨11⟩ : NodeId)) ∈ renamedCreation.children ⟨12⟩ := by
    decide +kernel
  have call : (Slot.expression, (⟨10⟩ : NodeId)) ∈ renamedCreation.children ⟨11⟩ := by
    decide +kernel
  have reached : renamedCreation.Reaches ⟨10⟩ := by
    rw [Reaches, root]
    exact .child (.child .self statement) call
  refine ⟨history, printed, by decide +kernel, reached, ?_⟩
  have read : (renamedCreation.node? ⟨10⟩).map (fun node =>
      (node.span, node.touched, node.shape.children.map Prod.fst, node.layout))
        = some (some ⟨6, 21⟩, false, [.object, .method, .arguments],
          [(.object, ⟨6, 16⟩), (.method, ⟨18, 19⟩), (.arguments, ⟨19, 21⟩)]) := by
    decide +kernel
  obtain ⟨node, found, same⟩ := Option.map_eq_some_iff.mp read
  simp only [Prod.mk.injEq] at same
  obtain ⟨spanned, untouched, slots, layout⟩ := same
  cases ended : renamedCreation.print {} with
  | error error =>
      rw [ended] at printed
      cases printed
  | ok whole =>
      obtain ⟨pieces, _, spans, _, prints, _⟩ := print_around_children history ended reached found
        spanned untouched (by rw [slots, layout]; rfl)
      rw [source] at prints
      refine ⟨pieces, ?_, prints⟩
      rw [spans, layout]
      rfl

end Tree

end Codemod
