import Codemod.Proofs.Print.Coverage
import Codemod.Proofs.Step
import Codemod.Proofs.Text.Splicing
import Codemod.Proofs.Tree.Sited

/-!
What printing tells. Whatever way a node is printed, the texts of the nodes it prints with stand in its
text as they are. The only children whose texts do not are those copied with the source, the parts that
a verbatim node has no place for, and an object that is taken into a chain of calls.
-/

namespace Codemod

namespace Text

def PartOf (part whole : String) : Prop :=
  ∃ front back, whole = front ++ part ++ back

theorem partOf_refl (text : String) : PartOf text text :=
  ⟨"", "", by simp⟩

namespace PartOf

variable {part text whole : String}

theorem trans (inner : PartOf part text) (outer : PartOf text whole) : PartOf part whole := by
  obtain ⟨front, back, rfl⟩ := inner
  obtain ⟨before, after, rfl⟩ := outer
  exact ⟨before ++ front, back ++ after, by simp [String.append_assoc]⟩

theorem left (inner : PartOf part text) (more : String) : PartOf part (text ++ more) :=
  inner.trans ⟨"", more, by simp⟩

theorem right (inner : PartOf part text) (more : String) : PartOf part (more ++ text) :=
  inner.trans ⟨more, "", by simp⟩

end PartOf

theorem partOf_join {texts : List String} {text : String} (member : text ∈ texts) :
    PartOf text (String.join texts) := by
  obtain ⟨front, back, rfl⟩ := List.append_of_mem member
  exact ⟨String.join front, String.join back, by simp [String.append_assoc]⟩

theorem partOf_intercalate (gap : String) {texts : List String} {text : String}
    (member : text ∈ texts) : PartOf text (gap.intercalate texts) := by
  induction texts with
  | nil => cases member
  | cons first rest ih =>
      cases rest with
      | nil =>
          rw [List.mem_singleton.mp member, String.intercalate_singleton]
          exact partOf_refl first
      | cons second rest =>
          rw [String.intercalate_cons_cons]
          rcases List.mem_cons.mp member with rfl | later
          · exact ((partOf_refl text).left gap).left _
          · exact (ih later).right _

theorem partOf_fill {source : String} {window : Span} {edits : List Replacement} {cursor : Nat}
    {text : String} (filled : fill source window edits cursor = .ok text) :
    ∀ edit ∈ edits, PartOf edit.text text := by
  induction edits generalizing cursor text with
  | nil => exact nofun
  | cons edit rest ih =>
      rw [fill_cons] at filled
      split at filled
      · cases filled
      split at filled
      · cases filled
      split at filled
      · cases filled
      next before _ =>
      cases further : fill source window rest edit.span.stop with
      | error reason => simp [further, Except.map] at filled
      | ok after =>
          simp only [further, Except.map, Except.ok.injEq] at filled
          subst filled
          refine List.forall_mem_cons.mpr ⟨?_, fun other member => (ih further other member).right _⟩
          exact ((partOf_refl edit.text).right before).left after

theorem partOf_splice {source : String} {window : Span} {edits : List Replacement} {text : String}
    (spliced : splice source window edits = .ok text) : ∀ edit ∈ edits, PartOf edit.text text := by
  intro edit member
  unfold splice at spliced
  split at spliced
  · cases spliced
  · exact partOf_fill spliced edit (List.mem_mergeSort.mpr member)

end Text

namespace Tree

open Text (PartOf partOf_refl)

variable {tree : Tree} {options : PrintOptions}

section

variable {print : NodeId → String → Except PrintError String}

-- A node was printed from some indentation, and what it printed as stands in a text.
def Told (print : NodeId → String → Except PrintError String) (whole : String) (id : NodeId) : Prop :=
  ∃ base text, print id base = .ok text ∧ PartOf text whole

theorem told_of_print {id : NodeId} {base text : String} (printed : print id base = .ok text) :
    Told print text id :=
  ⟨base, text, printed, partOf_refl text⟩

theorem Told.within {id : NodeId} {text whole : String} (told : Told print text id)
    (part : PartOf text whole) : Told print whole id := by
  obtain ⟨base, inner, printed, inside⟩ := told
  exact ⟨base, inner, printed, inside.trans part⟩

theorem Told.left {id : NodeId} {text : String} (told : Told print text id) (more : String) :
    Told print (text ++ more) id :=
  told.within ((partOf_refl text).left more)

theorem Told.right {id : NodeId} {text : String} (told : Told print text id) (more : String) :
    Told print (more ++ text) id :=
  told.within ((partOf_refl text).right more)

theorem told_of_mapM {step : NodeId → Except PrintError String} {ids : List NodeId}
    {texts : List String} (each : ∀ id text, step id = .ok text → Told print text id)
    (ran : ids.mapM step = .ok texts) : ∀ id ∈ ids, ∃ text ∈ texts, Told print text id := by
  induction ids generalizing texts with
  | nil => exact nofun
  | cons first rest ih =>
      rw [List.mapM_cons] at ran
      obtain ⟨text, here, later⟩ := bind_eq_ok.mp ran
      obtain ⟨others, further, made⟩ := bind_eq_ok.mp later
      cases made
      refine List.forall_mem_cons.mpr ⟨⟨text, by simp, each first text here⟩, ?_⟩
      intro id member
      obtain ⟨other, among, told⟩ := ih further id member
      exact ⟨other, List.mem_cons_of_mem _ among, told⟩

theorem printJoined_told {gap base text : String} {ids : List NodeId}
    (printed : printJoined print gap ids base = .ok text) : ∀ id ∈ ids, Told print text id := by
  obtain ⟨texts, ran, made⟩ := bind_eq_ok.mp printed
  cases made
  intro id member
  obtain ⟨part, among, told⟩ := told_of_mapM (fun _ _ => told_of_print) ran id member
  exact told.within (Text.partOf_intercalate gap among)

theorem printBlock_told {base text : String} {ids : List NodeId}
    (printed : printBlock options print ids base = .ok text) : ∀ id ∈ ids, Told print text id := by
  obtain ⟨lines, ran, made⟩ := bind_eq_ok.mp printed
  cases made
  have line : ∀ id line, (do return "\n" ++ (base ++ options.indent)
      ++ (← print id (base ++ options.indent))) = .ok line → Told print line id := by
    intro id line ran
    obtain ⟨text, shown, made⟩ := bind_eq_ok.mp ran
    cases made
    exact (told_of_print shown).right _
  intro id member
  obtain ⟨part, among, told⟩ := told_of_mapM line ran id member
  exact (((((told.within (Text.partOf_join among)).right _).left _).left _).left _)

theorem printOptional_told {held : Option NodeId} {base missing text : String}
    {around : String → String} (keeps : ∀ text, PartOf text (around text))
    (printed : printOptional print held base missing around = .ok text) :
    ∀ id ∈ held.toList, Told print text id := by
  intro id member
  obtain rfl := Option.mem_toList.mp member
  obtain ⟨inner, shown, made⟩ := bind_eq_ok.mp printed
  cases made
  exact (told_of_print shown).within (keeps inner)

theorem printChild_told {parent child : NodeId} {slot : Slot} {base text : String}
    (printed : tree.printChild print parent slot child base = .ok text) : Told print text child := by
  obtain ⟨inner, shown, made⟩ := bind_eq_ok.mp printed
  split at made <;> cases made
  · exact ((told_of_print shown).right _).left _
  · exact told_of_print shown

/-- Of the children with places all are told but those that are untouched. -/
theorem childReplacements_told {id : NodeId} {pairs : List ((Slot × NodeId) × (Slot × Span))}
    {edits : List Replacement} (made : tree.childReplacements print id pairs = .ok edits) :
    ∀ pair ∈ pairs, ¬ tree.isPristine pair.1.2 → ∃ edit ∈ edits, Told print edit.text pair.1.2 := by
  induction pairs generalizing edits with
  | nil => exact nofun
  | cons pair rest ih =>
      obtain ⟨⟨slot, child⟩, ⟨_, place⟩⟩ := pair
      rw [childReplacements] at made
      split at made
      · next kept =>
          refine List.forall_mem_cons.mpr ⟨fun changed => ?_, ih made⟩
          exact absurd (Bool.and_eq_true_iff.mp kept).2 changed
      · obtain ⟨text, printed, later⟩ := bind_eq_ok.mp made
        obtain ⟨others, further, made⟩ := bind_eq_ok.mp later
        cases made
        refine List.forall_mem_cons.mpr ⟨fun _ => ?_, ?_⟩
        · exact ⟨_, List.mem_cons_self, printChild_told printed⟩
        · intro other member changed
          obtain ⟨edit, among, told⟩ := ih further other member changed
          exact ⟨edit, List.mem_cons_of_mem _ among, told⟩

theorem printAround_told {id : NodeId} {node : Node} {span : Span} {text : String}
    (placed : node.shape.children.length ≤ node.layout.length)
    (printed : tree.printAround print id node span = .ok text) :
    ∀ child ∈ node.shape.children, ¬ tree.isPristine child.2 → Told print text child.2 := by
  obtain ⟨edits, made, spliced⟩ := bind_eq_ok.mp printed
  intro child member changed
  have children := List.map_fst_zip placed
  rw [← children] at member
  obtain ⟨pair, zipped, rfl⟩ := List.mem_map.mp member
  obtain ⟨edit, among, told⟩ := childReplacements_told made pair zipped changed
  split at spliced
  · next whole =>
      cases spliced
      exact told.within (Text.partOf_splice whole edit among)
  · cases spliced

theorem printItems_told {places : List Span} {itemBase gap text : String}
    {previous : Option (Option Nat)} {items : List NodeId}
    (printed : tree.printItems print places itemBase gap previous items = .ok text) :
    ∀ item ∈ items, Told print text item := by
  induction items generalizing previous text with
  | nil => exact nofun
  | cons item rest ih =>
      unfold printItems at printed
      obtain ⟨here, shown, later⟩ := bind_eq_ok.mp printed
      obtain ⟨others, further, made⟩ := bind_eq_ok.mp later
      cases made
      refine List.forall_mem_cons.mpr ⟨((told_of_print shown).right _).left _, ?_⟩
      exact fun other member => (ih further other member).right _

theorem printResized_told {node : Node} {span first : Span} {places : List Span} {text : String}
    (printed : tree.printResized print node span places first = .ok text) :
    ∀ child ∈ node.shape.children, Told print text child.2 := by
  obtain ⟨items, shown, made⟩ := bind_eq_ok.mp printed
  cases made
  intro child member
  exact ((printItems_told shown child.2 (List.mem_map_of_mem member)).right _).left _

/-- A node that is spelled out tells all its children, if it is no call of a method and no verbatim
node with more parts than places. -/
theorem printCanonical_told {id : NodeId} {node : Node} {base text : String}
    (call : node.shape.kind ≠ .methodCall)
    (placed : node.span.isSome → node.shape.kind = .verbatim →
      node.shape.children.length ≤ node.layout.length)
    (printed : tree.printCanonical options print id node base = .ok text) :
    ∀ child ∈ node.shape.children, ¬ tree.isPristine child.2 → Told print text child.2 := by
  have spelled : (∀ id ∈ node.shape.children.map Prod.snd, Told print text id) →
      ∀ child ∈ node.shape.children, ¬ tree.isPristine child.2 → Told print text child.2 :=
    fun told child member _ => told child.2 (List.mem_map_of_mem member)
  unfold printCanonical at printed
  cases shape : node.shape <;> rw [shape] at call spelled <;> simp only [shape] at printed
  case methodCall => exact absurd rfl call
  case «verbatim» label parts =>
    cases spanned : node.span with
    | none =>
        rw [spanned] at printed
        cases printed
    | some span =>
        rw [spanned] at printed
        rw [← shape]
        exact printAround_told (placed (by simp [spanned]) (by rw [shape]; rfl)) printed
  -- The other kinds print their children one after the other.
  all_goals
    apply spelled
    simp only [Shape.children, List.map_cons, List.map_nil, List.map_append, Shape.map_snd_tagged,
      List.forall_mem_cons, List.forall_mem_append, List.append_assoc, List.cons_append,
      List.not_mem_nil, IsEmpty.forall_iff, implies_true, and_true]
  case program => exact printJoined_told printed
  case block => exact printBlock_told printed
  case expressionStatement =>
    obtain ⟨inner, shown, ⟨⟩⟩ := bind_eq_ok.mp printed
    exact (told_of_print shown).left _
  case parenthesized =>
    obtain ⟨inner, shown, ⟨⟩⟩ := bind_eq_ok.mp printed
    exact ((told_of_print shown).right _).left _
  case argument =>
    obtain ⟨value, shown, ⟨⟩⟩ := bind_eq_ok.mp printed
    exact (told_of_print shown).right _
  case argumentList =>
    obtain ⟨items, shown, ⟨⟩⟩ := bind_eq_ok.mp printed
    exact fun item member => ((printJoined_told shown item member).right _).left _
  case array =>
    obtain ⟨items, shown, ⟨⟩⟩ := bind_eq_ok.mp printed
    intro item member
    have told := printJoined_told shown item member
    split <;> exact (told.right _).left _
  case functionCall =>
    obtain ⟨callee, first, printed⟩ := bind_eq_ok.mp printed
    obtain ⟨arguments, second, ⟨⟩⟩ := bind_eq_ok.mp printed
    exact ⟨(told_of_print first).left _, (told_of_print second).right _⟩
  case classConstFetch =>
    obtain ⟨className, first, printed⟩ := bind_eq_ok.mp printed
    obtain ⟨constant, second, ⟨⟩⟩ := bind_eq_ok.mp printed
    exact ⟨((told_of_print first).left _).left _, (told_of_print second).right _⟩
  case staticCall =>
    obtain ⟨className, first, printed⟩ := bind_eq_ok.mp printed
    obtain ⟨method, second, printed⟩ := bind_eq_ok.mp printed
    obtain ⟨arguments, third, ⟨⟩⟩ := bind_eq_ok.mp printed
    exact ⟨(((told_of_print first).left _).left _).left _,
      ((told_of_print second).right _).left _, (told_of_print third).right _⟩
  case new =>
    obtain ⟨arguments, first, printed⟩ := bind_eq_ok.mp printed
    obtain ⟨className, second, ⟨⟩⟩ := bind_eq_ok.mp printed
    have passed := printOptional_told partOf_refl first
    exact ⟨((told_of_print second).right _).left _, fun id member => (passed id member).right _⟩
  case arrayItem =>
    obtain ⟨key, first, printed⟩ := bind_eq_ok.mp printed
    obtain ⟨value, second, ⟨⟩⟩ := bind_eq_ok.mp printed
    have keyed := printOptional_told (fun text => (partOf_refl text).left _) first
    exact ⟨fun id member => ((keyed id member).left _).left _, (told_of_print second).right _⟩
  case classMethod =>
    obtain ⟨title, first, printed⟩ := bind_eq_ok.mp printed
    obtain ⟨parameters, second, printed⟩ := bind_eq_ok.mp printed
    obtain ⟨returnType, third, printed⟩ := bind_eq_ok.mp printed
    obtain ⟨body, fourth, ⟨⟩⟩ := bind_eq_ok.mp printed
    have taken := printJoined_told second
    have returned := printOptional_told (fun text => (partOf_refl text).right _) third
    have done := printOptional_told (fun text => (partOf_refl text).right _) fourth
    refine ⟨((((((told_of_print first).right _).left _).left _).left _).left _).left _, ?_, ?_, ?_⟩
    · exact fun id member => ((((taken id member).right _).left _).left _).left _
    · exact fun id member => ((returned id member).right _).left _
    · exact fun id member => (done id member).right _
  case parameter =>
    obtain ⟨hint, first, printed⟩ := bind_eq_ok.mp printed
    obtain ⟨holder, second, printed⟩ := bind_eq_ok.mp printed
    obtain ⟨value, third, ⟨⟩⟩ := bind_eq_ok.mp printed
    have hinted := printOptional_told (fun text => (partOf_refl text).left _) first
    have valued := printOptional_told (fun text => (partOf_refl text).right _) third
    refine ⟨fun id member => ?_, ((told_of_print second).right _).left _, fun id member => ?_⟩
    · exact ((((hinted id member).left _).left _).left _).left _
    · exact (valued id member).right _

/-- So does a node in general, if it is not copied as it was read and no new call. -/
theorem printNode_told {id : NodeId} {node : Node} {base text : String}
    (found : tree.node? id = some node) (sited : node.Sited) (changed : ¬ tree.isPristine id)
    (call : node.shape.kind = .methodCall → node.span.isSome)
    (printed : tree.printNode options print id base = .ok text) :
    ∀ child ∈ tree.children id, ¬ tree.isPristine child.2 → Told print text child.2 := by
  rw [children_of_node? found]
  simp only [printNode, found] at printed
  cases spanned : node.span with
  | none =>
      have other : node.shape.kind ≠ .methodCall := by
        intro same
        simpa [spanned] using call same
      rw [spanned] at printed
      exact printCanonical_told other sited.parts printed
  | some span =>
      simp only [spanned, if_neg changed] at printed
      split at printed
      · next kept =>
          have slots := eq_of_beq (Bool.and_eq_true_iff.mp kept).2
          have lengths : node.shape.children.length = node.layout.length := by
            simpa using congrArg List.length slots
          exact printAround_told (Nat.le_of_eq lengths) printed
      · next moved =>
          split at printed
          · exact fun child member _ => printResized_told printed child member
          · refine printCanonical_told (fun same => moved ?_) sited.parts printed
            -- A call that was read has its slots as they were, and is printed around its children.
            obtain ⟨untouched, slots⟩ := sited.call (by simp [spanned]) same
            simp [untouched, slots]

end

end Tree

end Codemod
