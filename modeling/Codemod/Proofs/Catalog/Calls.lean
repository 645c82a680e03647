import Codemod.Catalog.Call
import Codemod.Proofs.Edit.Building
import Codemod.Proofs.Run.Application

/-!
What rules find in a call whose subtree is held once: the name it spells, its list of arguments, and
the values in it, all below the call and apart from each other.
-/

namespace Codemod

open Step

namespace RuleStep

variable {α : Type} {tree after : Tree}

theorem run_get (tree : Tree) : (get : RuleStep Tree).run tree = (.ok tree, tree) := rfl

theorem run_lift {edit : Edit α} {value : α} (ran : edit.run tree = (.ok value, after)) :
    (liftM edit : RuleStep α).run tree = (.ok value, after) := by
  have lifted : (liftM edit : RuleStep α) = RuleStep.ofEdit edit := rfl
  rw [lifted, run_ofEdit, ran]

theorem run_ofQuery {query : Tree → Except Crash α} {value : α} (answers : query tree = .ok value) :
    (ofQuery query).run tree = (.ok value, tree) := by
  rw [ofQuery, run_bind_ok (run_get tree), answers]
  rfl

theorem run_requireChild {id child : NodeId} {slot : Slot} (found : tree.child? id slot = some child)
    (expected : String) : (requireChild id slot expected).run tree = (.ok child, tree) := by
  rw [requireChild, run_bind_ok (run_get tree), found]
  rfl

/-- Going through a list with edits, as a step of a rule. -/
theorem run_for {edit : α → Edit Unit} {values : List α}
    (ran : (values.forM edit).run tree = (.ok (), after)) :
    (forIn values PUnit.unit fun value _ => do
      (liftM (edit value) : RuleStep Unit)
      pure (ForInStep.yield PUnit.unit)).run tree = (.ok PUnit.unit, after) := by
  induction values generalizing tree with
  | nil =>
      cases ran
      rfl
  | cons value rest ih =>
      have unrolled : (value :: rest).forM edit = edit value >>= fun _ => rest.forM edit := rfl
      rw [unrolled] at ran
      generalize first : (edit value).run tree = result at ran
      rcases result with ⟨fault | ⟨⟩, middle⟩
      · rw [run_bind_error first] at ran
        cases ran
      · rw [run_bind_ok first] at ran
        rw [List.forIn_cons, bind_assoc, run_bind_ok (run_lift first)]
        exact ih ran

end RuleStep

namespace Tree

variable {tree after : Tree} {call id : NodeId} {slot : Slot}

theorem mem_childrenIn : id ∈ tree.childrenIn call slot ↔ (slot, id) ∈ tree.children call := by
  simp [childrenIn]

theorem child_of_array {array : NodeId} {items : List NodeId} {legacy : Bool}
    (read : tree.shape? array = some (.array items legacy)) (member : id ∈ items) :
    (Slot.item, id) ∈ tree.children array := by
  rw [children_of_shape? read]
  exact Shape.mem_tagged.mpr ⟨rfl, member⟩

theorem child_of_argumentList {list : NodeId} {arguments : List NodeId}
    (read : tree.shape? list = some (.argumentList arguments)) (member : id ∈ arguments) :
    (Slot.argument, id) ∈ tree.children list := by
  rw [children_of_shape? read]
  exact Shape.mem_tagged.mpr ⟨rfl, member⟩

theorem child_of_child? (found : tree.child? call slot = some id) :
    (slot, id) ∈ tree.children call :=
  mem_childrenIn.mp (List.mem_of_mem_head? found)

/-- A node holds nothing twice, also where it holds all in one slot. -/
theorem Keeps.nodup_tagged {ids : List NodeId} (keeps : tree.Keeps call)
    (slots : tree.children call = Shape.tagged slot ids) : ids.Nodup := by
  have nodup := keeps.nodup
  rwa [slots, Shape.map_snd_tagged] at nodup

theorem nodup_childrenIn (keeps : tree.Keeps call) (slot : Slot) :
    (tree.childrenIn call slot).Nodup :=
  keeps.nodup.sublist (List.filter_sublist.map Prod.snd)

theorem kind?_of_shape? {shape : Shape} (found : tree.shape? id = some shape) :
    tree.kind? id = some shape.kind := by
  rw [kind?, found]
  rfl

def nameSlot? : Kind → Option Slot
  | .functionCall => some .callee
  | .methodCall | .staticCall => some .method
  | _ => none

theorem shape?_of_spelledName? {title : String} (spelled : tree.spelledName? id = some title) :
    tree.shape? id = some (.name title) := by
  unfold spelledName? at spelled
  split at spelled
  · next value read =>
      cases spelled
      exact read
  · cases spelled

theorem callName?_eq_some {title : String} (spelled : tree.callName? call = some title) :
    ∃ kind slot callee, tree.kind? call = some kind ∧ nameSlot? kind = some slot
      ∧ tree.child? call slot = some callee ∧ tree.shape? callee = some (.name title) := by
  unfold callName? at spelled
  dsimp only at spelled
  obtain ⟨slot, found, named⟩ := Option.bind_eq_some_iff.mp spelled
  obtain ⟨callee, held, spells⟩ := Option.bind_eq_some_iff.mp named
  have shaped := shape?_of_spelledName? spells
  cases read : tree.kind? call with
  | none =>
      rw [read] at found
      cases found
  | some kind =>
      rw [read] at found
      refine ⟨kind, slot, callee, rfl, ?_, held, shaped⟩
      cases kind <;> exact found

structure Renamed (before : Tree) (call name : NodeId) (after : Tree) : Prop where
  reworked : before.Reworked call after call
  still : ∀ {id}, before.contains id → id ≠ name → after.node? id = before.node? id

theorem run_rename {title : String} (tidy : tree.Tidy call) (inside : tree.contains call)
    (found : tree.child? call slot = some id) (spelled : tree.shape? id = some (.name title))
    (value : String) :
    ∃ after, (Edit.setName id value).run tree = (.ok (), after) ∧ tree.Renamed call id after := by
  obtain ⟨after, runs, reworked⟩ := run_setName spelled rfl value
  have childless : tree.children id = [] := children_of_shape? spelled
  refine ⟨after, runs, reworked.lift tidy (.child .self (child_of_child? found)) inside, ?_⟩
  intro other contained differs
  exact reworked.frame contained fun below => differs (below_leaf childless below)

def listSlot (tree : Tree) (call : NodeId) : Slot :=
  if tree.kind? call = some .new then .constructorArguments else .arguments

theorem arguments_of_list {call list : NodeId}
    (held : tree.child? call (tree.listSlot call) = some list) :
    tree.arguments call = tree.childrenIn list .argument := by
  unfold listSlot at held
  unfold arguments
  dsimp only
  rw [held]

theorem arguments_of_none {call : NodeId} (held : tree.child? call (tree.listSlot call) = none) :
    tree.arguments call = [] := by
  unfold listSlot at held
  unfold arguments
  dsimp only
  rw [held]

theorem list_of_argument (member : id ∈ tree.arguments call) :
    ∃ list, tree.child? call (tree.listSlot call) = some list
      ∧ tree.arguments call = tree.childrenIn list .argument := by
  unfold arguments listSlot at *
  dsimp only at *
  split at member
  · next list found => exact ⟨list, found, rfl⟩
  · cases member

/-- A value passed by position, with its argument in the list of the call. -/
theorem positionalValue?_eq_some {position : Nat} {value : NodeId}
    (found : tree.positionalValue? call position = some value) :
    ∃ list argument, tree.child? call (tree.listSlot call) = some list
      ∧ (tree.childrenIn list .argument)[position]? = some argument
      ∧ tree.shape? argument = some (.argument none false value) := by
  obtain ⟨argument, listed, reads⟩ := Option.bind_eq_some_iff.mp found
  have shaped : tree.shape? argument = some (.argument none false value) := by
    split at reads
    · next shape read =>
        cases reads
        exact read
    · cases reads
  obtain ⟨list, held, same⟩ := list_of_argument (List.mem_of_getElem? listed)
  rw [same] at listed
  exact ⟨list, argument, held, listed, shaped⟩

theorem child?_of_node? (same : after.node? call = tree.node? call) (slot : Slot) :
    after.child? call slot = tree.child? call slot := by
  rw [child?, childrenIn, children, shape?, same]
  rfl

theorem kind?_of_node? (same : after.node? call = tree.node? call) :
    after.kind? call = tree.kind? call := by
  rw [kind?, shape?, same]
  rfl

theorem shape?_of_node_eq (same : after.node? id = tree.node? id) :
    after.shape? id = tree.shape? id := by
  rw [shape?, same]
  rfl

/-- The name of a call is not below its list of arguments. -/
theorem Tidy.name_apart (tidy : tree.Tidy call) {list name : NodeId} {listed named : Slot}
    (holds : tree.child? call listed = some list) (held : tree.child? call named = some name)
    (differ : listed ≠ named) {other : NodeId} (below : tree.Below list other) :
    ¬ tree.Below name other := by
  have first := child_of_child? holds
  have second := child_of_child? held
  refine tidy.disjoint .self first second ?_ below
  intro same
  exact differ (congrArg Prod.fst (tidy.holder_eq .self .self first second same).2)

/-- Arguments are taken out of the list of a call. -/
theorem run_dropArguments (tidy : tree.Tidy call) (inside : tree.contains call)
    {dropped : List NodeId} (listed : dropped.Sublist (tree.arguments call)) :
    ∃ after, (dropped.forM Edit.remove).run tree = (.ok (), after) ∧ tree.Reworked call after call
      ∧ ∀ {name named}, tree.child? call named = some name → named ≠ tree.listSlot call →
        after.node? call = tree.node? call ∧ after.node? name = tree.node? name := by
  cases dropped with
  | nil => exact ⟨tree, rfl, tidy.reworked, fun _ _ => ⟨rfl, rfl⟩⟩
  | cons argument others =>
      obtain ⟨list, held, same⟩ := list_of_argument (listed.subset List.mem_cons_self)
      have child := child_of_child? held
      have below : tree.Below call list := .child .self child
      have keeps := tidy.keeps below
      rw [same] at listed
      obtain ⟨after, removes, reworked⟩ := run_forM_remove ⟨list, .argument⟩ nofun
        ((nodup_childrenIn keeps .argument).sublist listed) (tidy.sub below)
        (tidy.contains_child .self child)
        (fun id member => mem_childrenIn.mp (listed.subset member))
      refine ⟨after, removes, reworked.lift tidy below inside, ?_⟩
      intro name named spelled differ
      constructor
      · exact reworked.frame inside (tidy.not_below_child .self child)
      · apply reworked.frame (tidy.contains_child .self (child_of_child? spelled))
        intro within
        exact tidy.name_apart held spelled (Ne.symm differ) within .self

theorem stringValue_ok (proper : tree.Proper) (id : NodeId) :
    ∃ value, tree.stringValue id = .ok value := by
  unfold stringValue
  split
  · next literal found =>
      have plain := proper.spelled found
      split
      · rw [plain]
        exact ⟨_, rfl⟩
      · exact ⟨_, rfl⟩
  · exact ⟨_, rfl⟩

end Tree

end Codemod
