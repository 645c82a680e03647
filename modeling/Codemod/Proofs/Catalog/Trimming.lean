import Codemod.Proofs.Catalog.Renaming
import Codemod.Proofs.Catalog.Safe
import Codemod.Proofs.Edit.Thinning
import Codemod.Proofs.Tree.Parsed

/-!
Calls that lose arguments or take another name. The arguments that stay keep their order and their
values, and all calls but the one that is edited keep their lists and names (`Trims`). Of a sequence
of such edits, whichever the calls, each node that is neither a list nor a name is as it was
(`Trimmed`).
-/

namespace Codemod

open Step

namespace Tree

variable {before middle after tree : Tree} {call id : NodeId}

/-- Lists of arguments hold other nodes and names are spelled in another way; all else is as it was,
up to back-references. -/
structure Trimmed (before after : Tree) : Prop where
  source : after.source = before.source
  size : after.size = before.size
  spans : ∀ id, after.span? id = before.span? id
  kinds : ∀ id, after.kind? id = before.kind? id
  shapes : ∀ {id}, before.kind? id ≠ some .argumentList → before.kind? id ≠ some .name →
    after.shape? id = before.shape? id

theorem trimmed_refl (tree : Tree) : tree.Trimmed tree where
  source := rfl
  size := rfl
  spans _ := rfl
  kinds _ := rfl
  shapes _ _ := rfl

section

variable (same : after.commit = before.commit)
include same

theorem shapes_of_commit : after.shape? = before.shape? := by
  funext id
  rw [shape?, node?, nodes_of_commit same, shape?, node?]

theorem arguments_of_commit (call : NodeId) : after.arguments call = before.arguments call := by
  unfold arguments kind? child? childrenIn children
  rw [shapes_of_commit same]

theorem callName?_of_commit (call : NodeId) : after.callName? call = before.callName? call := by
  unfold callName? spelledName? kind? child? childrenIn children
  rw [shapes_of_commit same]

theorem trimmed_of_commit : before.Trimmed after := by
  have shapes := shapes_of_commit same
  constructor
  case source => exact source_of_commit same
  case size => rw [size, nodes_of_commit same, size]
  case spans =>
    intro id
    rw [span?, node?, nodes_of_commit same, span?, node?]
  case kinds =>
    intro id
    rw [kind?, shapes, kind?]
  case shapes =>
    intro id _ _
    rw [shapes]

end

namespace Trimmed

theorem trans (first : before.Trimmed middle) (second : middle.Trimmed after) :
    before.Trimmed after where
  source := second.source.trans first.source
  size := second.size.trans first.size
  spans id := (second.spans id).trans (first.spans id)
  kinds id := (second.kinds id).trans (first.kinds id)
  shapes list name := by
    rw [second.shapes (by rwa [first.kinds]) (by rwa [first.kinds]), first.shapes list name]

variable (trimmed : before.Trimmed after)
include trimmed

/-- What a node of another kind is made of can be read in either tree. -/
theorem shape?_iff {shape : Shape} (list : shape.kind ≠ .argumentList) (name : shape.kind ≠ .name) :
    after.shape? id = some shape ↔ before.shape? id = some shape := by
  constructor
  · intro found
    have kind := (trimmed.kinds id).symm.trans (kind?_of_shape? found)
    rw [← found, trimmed.shapes]
    · rw [kind]
      simpa using list
    · rw [kind]
      simpa using name
  · intro found
    have kind := kind?_of_shape? found
    rw [← found, trimmed.shapes]
    · rw [kind]
      simpa using list
    · rw [kind]
      simpa using name

/-- Where only lists have changed a name is spelled as it was. -/
theorem spelledName? (shapes : ∀ {id}, before.kind? id ≠ some .argumentList →
    after.shape? id = before.shape? id) (id : NodeId) :
    after.spelledName? id = before.spelledName? id := by
  by_cases list : before.kind? id = some .argumentList
  · have unnamed : ∀ {tree : Tree}, tree.kind? id = some .argumentList →
        tree.spelledName? id = none := by
      intro tree kind
      rw [Option.eq_none_iff_forall_ne_some]
      intro title spelled
      rw [kind?_of_shape? (shape?_of_spelledName? spelled)] at kind
      cases kind
    rw [unnamed list, unnamed ((trimmed.kinds id).trans list)]
  · rw [Tree.spelledName?, shapes list, Tree.spelledName?]

theorem children_of_kind {kind : Kind} (found : before.kind? id = some kind)
    (list : kind ≠ .argumentList) (name : kind ≠ .name) :
    after.children id = before.children id := by
  rw [children, trimmed.shapes (by simpa [found] using list) (by simpa [found] using name), children]

theorem trimmedText? (id : NodeId) : after.trimmedText? id = before.trimmedText? id := by
  rw [Tree.trimmedText?, text?, trimmed.spans, trimmed.source, Tree.trimmedText?, text?]

theorem stringValue (id : NodeId) : after.stringValue id = before.stringValue id := by
  have literals : ∀ literal, after.shape? id = some (.literal literal)
      ↔ before.shape? id = some (.literal literal) := fun _ => trimmed.shape?_iff nofun nofun
  unfold Tree.stringValue
  split
  · next literal found => rw [(literals literal).mp found]
  · next other =>
      split
      · next literal found => exact absurd ((literals literal).mpr found) (other literal)
      · rfl

end Trimmed

def plainValue? (tree : Tree) (argument : NodeId) : Option NodeId :=
  match tree.shape? argument with
  | some (.argument none false value) => some value
  | _ => none

theorem positionalValue?_eq (tree : Tree) (call : NodeId) (position : Nat) :
    tree.positionalValue? call position
      = ((tree.arguments call)[position]?).bind tree.plainValue? := rfl

theorem plainValue?_eq_some {argument value : NodeId} :
    tree.plainValue? argument = some value
      ↔ tree.shape? argument = some (.argument none false value) := by
  unfold plainValue?
  constructor
  · intro found
    split at found
    · next read =>
        cases found
        exact read
    · cases found
  · intro read
    rw [read]

theorem Trimmed.plainValue? (trimmed : before.Trimmed after) (argument : NodeId) :
    after.plainValue? argument = before.plainValue? argument := by
  ext value
  rw [plainValue?_eq_some, plainValue?_eq_some]
  exact trimmed.shape?_iff nofun nofun

def IsCall (tree : Tree) (id : NodeId) : Prop :=
  (tree.kind? id).any CallTarget.kinds.contains

namespace IsCall

variable (called : tree.IsCall call)
include called

theorem kind : ∃ kind, tree.kind? call = some kind ∧ kind ≠ .argumentList ∧ kind ≠ .name
    ∧ kind ≠ .new ∧ kind ≠ .program := by
  unfold IsCall at called
  cases found : tree.kind? call with
  | none => simp [found] at called
  | some kind =>
      rw [found] at called
      have among : kind = .functionCall ∨ kind = .methodCall ∨ kind = .staticCall := by
        simpa [CallTarget.kinds] using called
      rcases among with rfl | rfl | rfl <;> exact ⟨_, rfl, nofun, nofun, nofun, nofun⟩

theorem listSlot : tree.listSlot call = .arguments := by
  obtain ⟨kind, found, _, _, plain, _⟩ := called.kind
  rw [Tree.listSlot, found, if_neg (by simpa using plain)]

theorem arguments_eq : tree.arguments call = match tree.child? call .arguments with
    | some list => tree.childrenIn list .argument
    | none => [] := by
  have slot := called.listSlot
  unfold Tree.listSlot at slot
  cases held : tree.child? call .arguments <;> simp only [arguments, slot, held]

theorem nodup_arguments (tidy : tree.Tidy call) : (tree.arguments call).Nodup := by
  rw [called.arguments_eq]
  split
  · next list held => exact nodup_childrenIn (tidy.keeps (.child .self (child_of_child? held))) _
  · exact List.nodup_nil

end IsCall

def CallsApart (tree : Tree) : Prop :=
  ∀ {first second : NodeId}, tree.IsCall first → tree.IsCall second → first ≠ second →
    ∀ slot id, (slot, id) ∈ tree.children first → ∀ place, (place, id) ∉ tree.children second

theorem ofProgram_callsApart (source : String) (program : List Php.Statement) :
    (ofProgram source program).CallsApart := by
  have reaches : ∀ {call}, (ofProgram source program).IsCall call →
      (ofProgram source program).Reaches call := by
    intro call called
    obtain ⟨kind, found, _, _, _, inner⟩ := called.kind
    exact ofProgram_reaches found inner
  intro first second called other differ slot id held place also
  exact differ (ofProgram_tidy.holder_eq (reaches called) (reaches other) held also rfl).1

namespace Trimmed

variable (trimmed : before.Trimmed after)
include trimmed

theorem isCall (called : before.IsCall call) : after.IsCall call := by
  rw [IsCall, trimmed.kinds]
  exact called

theorem children_of_call (called : before.IsCall call) :
    after.children call = before.children call := by
  obtain ⟨_, found, list, name, _⟩ := called.kind
  exact trimmed.children_of_kind found list name

theorem child?_of_call (called : before.IsCall call) (slot : Slot) :
    after.child? call slot = before.child? call slot := by
  rw [child?, childrenIn, trimmed.children_of_call called, child?, childrenIn]

/-- A call holds the list that it held; its arguments are those of the list. -/
theorem arguments_of_list (called : before.IsCall call)
    (same : ∀ list, before.child? call .arguments = some list →
      after.childrenIn list .argument = before.childrenIn list .argument) :
    after.arguments call = before.arguments call := by
  rw [called.arguments_eq, (trimmed.isCall called).arguments_eq, trimmed.child?_of_call called]
  cases held : before.child? call .arguments with
  | none => rfl
  | some list => exact same list held

theorem callName?_of_callee (called : before.IsCall call)
    (same : ∀ slot callee, before.child? call slot = some callee →
      after.spelledName? callee = before.spelledName? callee) :
    after.callName? call = before.callName? call := by
  unfold callName?
  dsimp only
  rw [trimmed.kinds]
  congr 1
  funext slot
  rw [trimmed.child?_of_call called]
  cases held : before.child? call slot with
  | none => rfl
  | some callee => exact same slot callee held

end Trimmed

/-- Of all nodes only children of the call have changed, its list of arguments and its name. -/
structure Trims (before : Tree) (call : NodeId) (after : Tree) : Prop where
  trimmed : before.Trimmed after
  still : ∀ {id}, (∀ slot, (slot, id) ∉ before.children call) → after.shape? id = before.shape? id

namespace Trims

theorem trans (called : before.IsCall call) (first : before.Trims call middle)
    (second : middle.Trims call after) : before.Trims call after where
  trimmed := first.trimmed.trans second.trimmed
  still apart := by
    have same := first.trimmed.children_of_call called
    rw [second.still (by rwa [same]), first.still apart]

/-- A call that shares no child with the one that was edited. -/
theorem others (trims : before.Trims call after) {other : NodeId} (called : before.IsCall other)
    (apart : ∀ slot id, (slot, id) ∈ before.children other →
      ∀ place, (place, id) ∉ before.children call) :
    after.arguments other = before.arguments other
      ∧ after.callName? other = before.callName? other := by
  have same : ∀ {slot id}, before.child? other slot = some id →
      after.shape? id = before.shape? id :=
    fun found => trims.still (apart _ _ (child_of_child? found))
  constructor
  · apply trims.trimmed.arguments_of_list called
    intro list held
    rw [childrenIn, children, same held, childrenIn, children]
  · apply trims.trimmed.callName?_of_callee called
    intro slot callee held
    rw [spelledName?, same held, spelledName?]

end Trims

theorem kind_of_argument {list argument : NodeId}
    (held : (Slot.argument, argument) ∈ tree.children list) : tree.kind? list = some .argumentList := by
  obtain ⟨shape, found, member⟩ := shape?_of_child held
  obtain ⟨arguments, rfl⟩ : ∃ arguments, shape = .argumentList arguments := by
    cases shape <;> simp [Shape.children, Shape.tagged] at member ⊢
  exact kind?_of_shape? found

/-- A list that loses some of the nodes it holds. -/
theorem Thinned.trims {list : NodeId} {dropped : List NodeId}
    (thinned : tree.Thinned list dropped after) (kind : tree.kind? list = some .argumentList)
    (held : (Slot.arguments, list) ∈ tree.children call) :
    tree.Trims call after ∧ ∀ {id}, tree.kind? id ≠ some .argumentList →
      after.shape? id = tree.shape? id := by
  obtain ⟨node, found⟩ := node?_of_contains (contains_of_kind? kind)
  obtain ⟨left, there, thinner⟩ := thinned.remains found
  have others : ∀ {id}, id ≠ list → after.shape? id = tree.shape? id :=
    fun differs => shape?_of_bare (thinned.others differs)
  have shapes : ∀ {id}, tree.kind? id ≠ some .argumentList → after.shape? id = tree.shape? id := by
    intro id other
    apply others
    rintro rfl
    exact other kind
  refine ⟨⟨⟨thinned.source, thinned.size, ?_, ?_, fun list _ => shapes list⟩, ?_⟩, shapes⟩
  · intro id
    by_cases same : id = list
    · subst same
      rw [span?, there, span?, found]
      exact thinner.span
    · exact span?_of_bare (thinned.others same)
  · intro id
    by_cases same : id = list
    · subst same
      rw [kind?, shape?, there, kind?, shape?, found]
      exact congrArg some thinner.kind
    · rw [kind?, others same, kind?]
  · intro id apart
    apply others
    rintro rfl
    exact apart _ held

/-- Arguments are taken out of the list of a call. -/
theorem run_drop (tidy : tree.Tidy call) (called : tree.IsCall call) {dropped : List NodeId}
    (listed : dropped.Sublist (tree.arguments call)) :
    ∃ after, (dropped.forM Edit.remove).run tree = (.ok (), after) ∧ tree.Trims call after
      ∧ (∀ {id}, tree.kind? id ≠ some .argumentList → after.shape? id = tree.shape? id)
      ∧ after.arguments call = (tree.arguments call).filter fun argument => argument ∉ dropped := by
  by_cases none : dropped = []
  · subst none
    exact ⟨tree, rfl, ⟨tree.trimmed_refl, fun _ => rfl⟩, fun _ => rfl, by simp⟩
  · obtain ⟨first, member⟩ := List.exists_mem_of_ne_nil _ none
    obtain ⟨list, held, same⟩ := list_of_argument (listed.subset member)
    rw [called.listSlot] at held
    have child := child_of_child? held
    have keeps := tidy.keeps (.child .self child)
    have among : ∀ id ∈ dropped, (Slot.argument, id) ∈ tree.children list :=
      fun id member => mem_childrenIn.mp (same ▸ listed.subset member)
    have nodup : dropped.Nodup := (nodup_childrenIn keeps .argument).sublist (same ▸ listed)
    obtain ⟨after, removes, thinned⟩ := forM_remove_thins keeps nodup
      fun id member => ⟨.argument, among id member, nofun⟩
    obtain ⟨trims, shapes⟩ := thinned.trims (kind_of_argument (among first member)) child
    refine ⟨after, removes, trims, shapes, ?_⟩
    have kept : after.childrenIn list .argument
        = (tree.childrenIn list .argument).filter fun argument => argument ∉ dropped := by
      rw [childrenIn, thinned.children (tidy.contains_child .self child), childrenIn, List.filter_map,
        List.filter_filter, List.filter_filter]
      congr 1
      exact List.filter_congr fun child _ => by simp [Bool.and_comm]
    rw [(trims.trimmed.isCall called).arguments_eq, trims.trimmed.child?_of_call called,
      called.arguments_eq, held]
    exact kept

theorem callName?_of_kind {kind : Kind} {slot : Slot} (read : tree.kind? call = some kind)
    (slotted : nameSlot? kind = some slot) :
    tree.callName? call = (tree.child? call slot).bind tree.spelledName? := by
  rw [callName?, read]
  cases kind <;> cases slotted <;> rfl

/-- A call takes another name. -/
theorem run_retitle (called : tree.IsCall call) {title name : String}
    (named : tree.callName? call = some title) (differs : name ≠ title) :
    ∃ after, (Edit.renameCall call name).run tree = (.ok (), after) ∧ tree.Trims call after
      ∧ after.callName? call = some name ∧ after.arguments call = tree.arguments call := by
  obtain ⟨kind, slot, callee, read, slotted, held, spelled⟩ := callName?_eq_some named
  have respelled : tree.Respelled ([] ++ [(callee, name)])
      ((tree.recordNode callee).setData callee (.name name)).bump :=
    tree.respelled_nil.setName spelled rfl
  have others : ∀ {id}, id ≠ callee → List.lookup id [(callee, name)] = none := by
    intro id differs
    have apart : (id == callee) = false := by simpa using differs
    simp [List.lookup_cons, apart]
  have renames : (Edit.renameCall call name).run tree
      = (.ok (), ((tree.recordNode callee).setData callee (.name name)).bump) := by
    have slots : (if tree.kind? call = some .functionCall then Slot.callee else .method) = slot := by
      rw [read]
      cases kind <;> cases slotted <;> rfl
    rw [Edit.renameCall, run_bind_ok (Step.run_get tree)]
    dsimp only
    rw [slots, held]
    exact run_setName_other spelled differs
  have trimmed : tree.Trimmed ((tree.recordNode callee).setData callee (.name name)).bump := by
    refine ⟨respelled.source, respelled.size, respelled.span?, respelled.kind?, ?_⟩
    intro id _ other
    have apart : id ≠ callee := by
      rintro rfl
      exact other (kind?_of_shape? spelled)
    rw [shape?, respelled.node?_other (others apart), shape?]
  refine ⟨_, renames, ⟨trimmed, ?_⟩, ?_, ?_⟩
  · intro id apart
    have differs : id ≠ callee := by
      rintro rfl
      exact apart _ (child_of_child? held)
    rw [shape?, respelled.node?_other (others differs), shape?]
  · rw [callName?_of_kind ((respelled.kind? call).trans read) slotted, trimmed.child?_of_call called,
      held, Option.bind_some, spelledName?, respelled.shape?]
    simp
  · apply trimmed.arguments_of_list called
    intro list _
    rw [childrenIn, respelled.children, childrenIn]

end Tree

variable {tree : Tree} {call : NodeId}

theorem RemoveArgument.run_apply (config : RemoveArgument) (tidy : tree.Tidy call)
    (called : tree.IsCall call) {argument : NodeId}
    (found : config.argument? tree call = .ok (some argument))
    (listed : argument ∈ tree.arguments call) :
    ∃ after, (config.apply call).run tree = (.ok .unchanged, after) ∧ tree.Trims call after
      ∧ (∀ {id}, tree.kind? id ≠ some .argumentList → after.shape? id = tree.shape? id)
      ∧ after.arguments call = (tree.arguments call).filter fun other => other ∉ [argument] := by
  obtain ⟨after, drops, trims⟩ := Tree.run_drop tidy called (List.singleton_sublist.mpr listed)
  have removes : (Edit.remove argument).run tree = (.ok (), after) := by
    have unrolled : [argument].forM Edit.remove = Edit.remove argument >>= fun _ => pure () := rfl
    rwa [unrolled, bind_pure_unit] at drops
  refine ⟨after, ?_, trims⟩
  rw [apply, run_bind_ok (RuleStep.run_ofQuery found)]
  dsimp only
  rw [run_bind_ok (RuleStep.run_lift removes)]
  rfl

theorem RenameMethodByArgument.run_apply (config : RenameMethodByArgument) (tidy : tree.Tidy call)
    (called : tree.IsCall call) {plan : Plan} (planned : config.plan tree call = .ok (some plan))
    (listed : plan.dropped.Sublist (tree.arguments call)) {title : String}
    (named : tree.callName? call = some title) (differs : plan.rename ≠ some title) :
    ∃ after, (config.apply call).run tree = (.ok .unchanged, after) ∧ tree.Trims call after
      ∧ after.callName? call = some (plan.rename.getD title)
      ∧ after.arguments call = (tree.arguments call).filter fun other => other ∉ plan.dropped := by
  obtain ⟨middle, drops, trims, shapes, dropped⟩ := Tree.run_drop tidy called listed
  have called' := trims.trimmed.isCall called
  -- Arguments go first, then the name is set on the same node.
  have kept : middle.callName? call = some title := by
    rw [← named]
    exact trims.trimmed.callName?_of_callee called fun _ callee _ =>
      trims.trimmed.spelledName? shapes callee
  rw [apply, run_bind_ok (RuleStep.run_ofQuery planned)]
  dsimp only
  rw [run_bind_ok (RuleStep.run_for drops)]
  cases rename : plan.rename with
  | none => exact ⟨middle, rfl, trims, kept, dropped⟩
  | some name =>
      have other : name ≠ title := fun same => differs (same ▸ rename)
      obtain ⟨after, renames, retitled, spelled, still⟩ := Tree.run_retitle called' kept other
      dsimp only
      rw [run_bind_ok (RuleStep.run_lift renames)]
      exact ⟨after, rfl, trims.trans called retitled, spelled, still.trans dropped⟩

end Codemod
