import Codemod.Proofs.Catalog.Flattening
import Codemod.Proofs.Catalog.Trimming
import Mathlib.Data.List.Forall2

/-!
The rule that wraps arguments, applied to a call. Of the nodes that were there it changes the name of
the call, and either the items of an array or the list of arguments of the call (`Fills`). No other
call reads any of these, so all that is told of it stays as it was.
-/

theorem List.Forall₂.compose {α β γ : Type} {R : α → β → Prop} {S : β → γ → Prop} {T : α → γ → Prop}
    (joins : ∀ {first middle last}, R first middle → S middle last → T first last)
    {front : List α} {between : List β} {back : List γ} (early : List.Forall₂ R front between)
    (late : List.Forall₂ S between back) : List.Forall₂ T front back := by
  induction early generalizing back with
  | nil =>
      cases late
      exact .nil
  | cons head _ ih =>
      cases late with
      | cons next rest => exact .cons (joins head next) (ih rest)

namespace Codemod

open Step

/-! ### Nodes that are made anew -/

namespace Tree

variable {before middle after tree : Tree} {id : NodeId}

/-- Of the nodes that were there only some have another shape. -/
structure Remade (before : Tree) (some : List NodeId) (after : Tree) : Prop where
  size : before.size ≤ after.size
  shapes : ∀ {id}, before.contains id → id ∉ some → after.shape? id = before.shape? id

namespace Remade

variable {some others : List NodeId}

theorem contains (remade : before.Remade some after) (inside : before.contains id) :
    after.contains id :=
  grown remade.size inside

theorem weaken (remade : before.Remade some after)
    (more : ∀ id ∈ some, before.contains id → id ∈ others) : before.Remade others after where
  size := remade.size
  shapes inside apart := remade.shapes inside fun among => apart (more _ among inside)

theorem trans (first : before.Remade some middle) (second : middle.Remade others after) :
    before.Remade (some ++ others) after where
  size := Nat.le_trans first.size second.size
  shapes inside apart := by
    rw [List.mem_append, not_or] at apart
    rw [second.shapes (first.contains inside) apart.2, first.shapes inside apart.1]

theorem shape? (remade : before.Remade some after) {shape : Shape} (found : before.shape? id = shape)
    (apart : id ∉ some) : after.shape? id = shape :=
  (remade.shapes (contains_of_shape? found) apart).trans found

/-- A node that is not as old as the one that changes. -/
theorem keeps {changed : NodeId} (remade : middle.Remade [changed] after)
    (inside : before.contains changed) {shape : Shape} (fresh : ¬ before.contains id)
    (found : middle.shape? id = shape) : after.shape? id = shape := by
  apply remade.shape? found
  rintro member
  cases List.mem_singleton.mp member
  exact fresh inside

end Remade

theorem Extended.remade (extended : before.Extended after) : before.Remade [] after :=
  ⟨extended.size, fun inside _ => extended.shapes inside⟩

/-- A slot that is filled with another node belongs to the only one that changes. -/
theorem run_replaceAt_remade (link : Link) {old new : NodeId} {shape : Shape}
    {storage filled : Storage} (found : tree.shape? link.parent = some shape)
    (holds : shape.storage? link.slot = some storage) (differ : old ≠ new)
    (replaced : storage.replace? old new = some filled) (leaving : tree.contains old)
    (entering : tree.contains new) :
    ∃ after, (Edit.replaceAt (some link) old new).run tree = (.ok (), after)
      ∧ tree.Remade [link.parent] after
      ∧ after.shape? link.parent = some (shape.store link.slot filled) := by
  refine ⟨_, Edit.run_replaceAt found holds differ replaced leaving entering, ?_, ?_⟩
  · constructor
    · exact Nat.le_of_eq (framed_refill ..).size.symm
    · intro id _ apart
      rw [shape?_bump, shape?_refill, if_neg (List.mem_singleton.not.mp apart)]
  · rw [shape?_bump, shape?_refill, if_pos rfl, found]
    rfl

/-- A name that is spelled in another way is the only node that changes. -/
theorem run_setName_remade {title name : String} (spelled : tree.shape? id = some (.name title))
    (differs : name ≠ title) :
    ∃ after, (Edit.setName id name).run tree = (.ok (), after) ∧ tree.Remade [id] after
      ∧ after.shape? id = some (.name name) := by
  have respelled : tree.Respelled ([] ++ [(id, name)])
      ((tree.recordNode id).setData id (.name name)).bump :=
    tree.respelled_nil.setName spelled rfl
  refine ⟨_, run_setName_other spelled differs, ⟨Nat.le_of_eq respelled.size.symm, ?_⟩, ?_⟩
  · intro other _ apart
    have unlisted : (other == id) = false := by simpa using apart
    rw [respelled.shape?]
    simp [List.lookup_cons, unlisted]
  · rw [respelled.shape?]
    simp

theorem shape?_of_methodCall (kind : tree.kind? id = some .methodCall) :
    ∃ target method list nullsafe, tree.shape? id = some (.methodCall target method list nullsafe) := by
  obtain ⟨shape, found, same⟩ := Option.map_eq_some_iff.mp kind
  cases shape with
  | methodCall target method list nullsafe => exact ⟨target, method, list, nullsafe, found⟩
  | _ => cases same

theorem child?_of_arrayItem {key : Option NodeId} {value : NodeId} {unpack : Bool}
    (shaped : tree.shape? id = some (.arrayItem key value unpack)) :
    tree.child? id .key = key ∧ tree.child? id .value = some value := by
  rw [child?, childrenIn, child?, childrenIn, children_of_shape? shaped]
  cases key <;> exact ⟨rfl, rfl⟩

end Tree

namespace WrapArguments

open ExtractChainArguments (Carries run_arguments)

variable {config : WrapArguments} {before middle after tree : Tree} {call : NodeId}

/-! ### What is made of values -/

structure Object (config : WrapArguments) (before : Tree) (values : List NodeId) (object : NodeId)
    (after : Tree) : Prop where
  fresh : ¬ before.contains object
  made : ∃ title list arguments, after.shape? object = some (.new title (some list))
    ∧ ¬ before.contains title ∧ after.shape? title = some (.name config.className)
    ∧ ¬ before.contains list ∧ after.shape? list = some (.argumentList arguments)
    ∧ List.Forall₂ (fun value argument => Carries before value argument after) values arguments

theorem Object.later {values : List NodeId} {object : NodeId}
    (made : Object config before values object middle)
    (keeps : ∀ {id shape}, ¬ before.contains id → middle.shape? id = some shape →
      after.shape? id = some shape) : Object config before values object after := by
  obtain ⟨fresh, title, list, arguments, creates, titleFresh, named, listFresh, listed, carried⟩ := made
  exact ⟨fresh, title, list, arguments, keeps fresh creates, titleFresh, keeps titleFresh named,
    listFresh, keeps listFresh listed, carried.imp fun _ _ carries => carries.later keeps⟩

/-- What is new where the tree has grown already was new before. -/
theorem Object.earlier {values : List NodeId} {object : NodeId} (size : before.size ≤ middle.size)
    (made : Object config middle values object after) : Object config before values object after := by
  have grows : ∀ {id}, ¬ middle.contains id → ¬ before.contains id :=
    fun fresh early => fresh (Tree.grown size early)
  obtain ⟨fresh, title, list, arguments, creates, titleFresh, named, listFresh, listed, carried⟩ := made
  exact ⟨grows fresh, title, list, arguments, creates, grows titleFresh, named, grows listFresh, listed,
    carried.imp fun _ _ carries => ⟨grows carries.1, carries.2⟩⟩

theorem Object.isWrapped {values : List NodeId} {object : NodeId}
    (made : Object config before values object after) : config.isWrapped after object := by
  obtain ⟨_, title, list, arguments, creates, _, named, _⟩ := made
  have spelled : after.instantiatedClass? object = some config.className := by
    rw [Tree.instantiatedClass?, Tree.child?, Tree.childrenIn, Tree.children_of_shape? creates]
    have reads : after.spelledName? title = some config.className := by rw [Tree.spelledName?, named]
    simpa [Shape.children, Shape.tagged] using reads
  rw [WrapArguments.isWrapped, Tree.kind?_of_shape? creates, spelled]
  simp [Shape.kind, Name.same_iff.mpr]

theorem run_object (config : WrapArguments) {values : List NodeId} (base : before.Extended tree)
    (inside : ∀ value ∈ values, tree.contains value) :
    ∃ object after, (config.wrapped values).run tree = (.ok object, after) ∧ tree.Extended after
      ∧ Object config before values object after := by
  obtain ⟨list, first, arguments, lists, grows, listFresh, listed, carried⟩ := run_arguments base inside
  obtain ⟨title, second, names, extended, titleFresh, named⟩ :=
    Tree.run_alloc_extended (base.trans grows) (show ∀ child ∈ (Shape.name config.className).children,
      first.contains child.2 from nofun)
  have present : ∀ child ∈ (Shape.new title (some list)).children, second.contains child.2 := by
    intro child member
    simp only [Shape.children, Shape.tagged, Option.toList_some, List.map_cons, List.map_nil,
      List.mem_cons, List.not_mem_nil, or_false] at member
    rcases member with rfl | rfl
    · exact Tree.contains_of_shape? named
    · exact Tree.contains_of_shape? (extended.shape? listed)
  obtain ⟨object, after, creates, further, fresh, shaped⟩ :=
    Tree.run_alloc_extended ((base.trans grows).trans extended) present
  refine ⟨object, after, ?_, (grows.trans extended).trans further, fresh, title, list, arguments, shaped,
    titleFresh, further.shape? named, listFresh, further.shape? (extended.shape? listed), ?_⟩
  · rw [wrapped, run_bind_ok lists, Edit.newInstance, Edit.name, run_bind_ok names]
    exact creates
  · exact carried.imp fun _ _ carries => carries.later fun _ found =>
      further.shape? (extended.shape? found)

/-! ### Items of an array -/

/-- What stands in place of an item: the item itself, or a new one with its key and its value
wrapped. -/
inductive Rewrapped (config : WrapArguments) (before : Tree) (left : List NodeId) (after : Tree) :
    NodeId → NodeId → Prop
  | kept {item : NodeId} (other : item ∉ left) : Rewrapped config before left after item item
  | wrapped {item value new object : NodeId} (member : item ∈ left)
      (held : before.child? item .value = some value) (fresh : ¬ before.contains new)
      (shaped : after.shape? new = some (.arrayItem none object false))
      (made : Object config before ((before.child? item .key).toList ++ [value]) object after) :
      Rewrapped config before left after item new

theorem Rewrapped.among {left more : List NodeId} {item new : NodeId}
    (rewrapped : Rewrapped config before left after item new) (same : item ∈ left ↔ item ∈ more) :
    Rewrapped config before more after item new := by
  cases rewrapped with
  | kept other => exact .kept (same.not.mp other)
  | wrapped member held fresh shaped made => exact .wrapped (same.mp member) held fresh shaped made

theorem Rewrapped.later {left : List NodeId} {item new : NodeId}
    (rewrapped : Rewrapped config before left middle item new)
    (keeps : ∀ {id shape}, ¬ before.contains id → middle.shape? id = some shape →
      after.shape? id = some shape) : Rewrapped config before left after item new := by
  cases rewrapped with
  | kept other => exact .kept other
  | wrapped member held fresh shaped made =>
      exact .wrapped member held fresh (keeps fresh shaped) (made.later keeps)

theorem Rewrapped.earlier {left : List NodeId} {item new : NodeId} (size : before.size ≤ middle.size)
    (same : item ∈ left → ∀ slot, middle.child? item slot = before.child? item slot)
    (rewrapped : Rewrapped config middle left after item new) :
    Rewrapped config before left after item new := by
  cases rewrapped with
  | kept other => exact .kept other
  | wrapped member held fresh shaped made =>
      rw [same member] at held made
      exact .wrapped member held (fun early => fresh (Tree.grown size early)) shaped (made.earlier size)

theorem run_wrapItem_remade (config : WrapArguments) {array item value : NodeId} {items : List NodeId}
    {legacy : Bool} (tidy : tree.Tidy array) (read : tree.shape? array = some (.array items legacy))
    (among : item ∈ items) (held : tree.child? item .value = some value) :
    ∃ new after, (config.wrapItem item).run tree = (.ok (), after)
      ∧ tree.Swapped ⟨array, .item⟩ item after (some new) ∧ tree.Remade [array] after
      ∧ after.shape? array = some (.array (items.replace item new) legacy)
      ∧ Rewrapped config tree [item] after item new := by
  have child := Tree.child_of_array read among
  have present : ∀ part ∈ (tree.child? item .key).toList ++ [value], tree.contains part := by
    have below : tree.Below array item := .child .self child
    intro part member
    rcases List.mem_append.mp member with key | last
    · exact tidy.contains_child below (Tree.child_of_child? (Option.mem_toList.mp key))
    · cases List.mem_singleton.mp last
      exact tidy.contains_child below (Tree.child_of_child? held)
  -- The steps of the edit, each gone through once more for what it builds.
  obtain ⟨object, middle, new, next, after, wraps, adds, replaces, ran, swapped⟩ :=
    run_wrapItem config tidy child held
  obtain ⟨_, _, also, extended, made⟩ := run_object config (.refl tree) present
  cases wraps.symm.trans also
  have inside : ∀ child ∈ (Shape.arrayItem none object false).children, middle.contains child.2 := by
    intro child member
    obtain ⟨_, _, _, creates, _⟩ := made.made
    cases List.mem_singleton.mp member
    exact Tree.contains_of_shape? creates
  obtain ⟨_, _, alsoAdds, further, fresh, shaped⟩ := Tree.run_alloc_extended extended inside
  cases adds.symm.trans alsoAdds
  have grown := extended.trans further
  have early := tidy.contains_child .self child
  have differ : item ≠ new := by
    rintro rfl
    exact fresh early
  have replaced : (Storage.many items).replace? item new = some (.many (items.replace item new)) :=
    if_pos among
  obtain ⟨_, alsoReplaces, remade, stored⟩ := Tree.run_replaceAt_remade
    ⟨array, .item⟩ (grown.shape? read) rfl differ replaced (grown.contains early)
    (Tree.contains_of_shape? shaped)
  cases replaces.symm.trans alsoReplaces
  have old := Tree.contains_of_shape? read
  refine ⟨new, after, ran, swapped, grown.remade.trans remade, stored, ?_⟩
  exact .wrapped List.mem_cons_self held fresh (remade.keeps old fresh shaped)
    (made.later fun absent found => remade.keeps old absent (further.shape? found))

/-- Of a list without repetitions one entry is replaced. -/
theorem forall₂_replace {items : List NodeId} (nodup : items.Nodup) (item new : NodeId) :
    List.Forall₂ (fun old other => old ≠ item ∧ other = old ∨ old = item ∧ other = new) items
      (items.replace item new) := by
  induction items with
  | nil => exact .nil
  | cons first rest ih =>
      obtain ⟨apart, nodupRest⟩ := List.nodup_cons.mp nodup
      by_cases here : first = item
      · subst here
        rw [List.replace_cons_self]
        refine .cons (Or.inr ⟨rfl, rfl⟩) (List.forall₂_same.mpr fun other member => Or.inl ⟨?_, rfl⟩)
        rintro rfl
        exact apart member
      · have differs : (item == first) = false := by simpa using Ne.symm here
        rw [List.replace_cons, differs]
        exact .cons (Or.inl ⟨here, rfl⟩) (ih nodupRest)

/-- One item is put anew, then those that are left. -/
theorem forall₂_rewrapped {item new : NodeId} {items rest news : List NodeId} (nodup : items.Nodup)
    (wrapped : Rewrapped config before [item] middle item new) (apart : item ∉ rest)
    (fresh : new ∉ rest) (size : before.size ≤ middle.size)
    (same : ∀ other ∈ items, ∀ slot, middle.child? other slot = before.child? other slot)
    (keeps : ∀ {id shape}, ¬ before.contains id → middle.shape? id = some shape →
      after.shape? id = some shape)
    (rewrapped : List.Forall₂ (Rewrapped config middle rest after) (items.replace item new) news) :
    List.Forall₂ (Rewrapped config before (item :: rest) after) items news := by
  have exchanged := (List.forall₂_and_left items _).mpr
    ⟨fun _ => id, forall₂_replace nodup item new⟩
  refine exchanged.compose ?_ rewrapped
  rintro first _ last ⟨member, ⟨differs, rfl⟩ | ⟨rfl, rfl⟩⟩ turned
  · exact (turned.earlier size fun _ => same _ member).among (by simp [differs])
  · cases turned with
    | kept _ => exact (wrapped.later keeps).among (by simp)
    | wrapped later => exact absurd later fresh

theorem run_wrapItems_remade (config : WrapArguments) {array : NodeId} {items left : List NodeId}
    {legacy : Bool} (nodup : left.Nodup) (tidy : tree.Tidy array) (inside : tree.contains array)
    (read : tree.shape? array = some (.array items legacy))
    (stand : ∀ item ∈ left, item ∈ items ∧ ∃ value, tree.child? item .value = some value) :
    ∃ after news, (left.forM config.wrapItem).run tree = (.ok (), after)
      ∧ tree.Reworked array after array ∧ tree.Remade [array] after
      ∧ after.shape? array = some (.array news legacy)
      ∧ List.Forall₂ (Rewrapped config tree left after) items news := by
  induction left generalizing tree items with
  | nil =>
      refine ⟨tree, items, rfl, tidy.reworked, ⟨Nat.le_refl _, fun _ _ => rfl⟩, read, ?_⟩
      exact List.forall₂_same.mpr fun item _ => .kept List.not_mem_nil
  | cons item rest ih =>
      obtain ⟨apart, nodupRest⟩ := List.nodup_cons.mp nodup
      obtain ⟨among, value, held⟩ := stand item List.mem_cons_self
      obtain ⟨new, middle, wraps, swapped, remade, stored, wrapped⟩ :=
        run_wrapItem_remade config tidy read among held
      have slots : tree.children array = Shape.tagged .item items := Tree.children_of_shape? read
      have old : ∀ other ∈ items, tree.contains other ∧ other ∉ [array] := by
        intro other member
        have child := Tree.child_of_array read member
        exact ⟨tidy.contains_child .self child, by simpa using tidy.topless .self child⟩
      -- The items that are left stay where they are, as they are.
      have same : ∀ other ∈ items, ∀ slot, middle.child? other slot = tree.child? other slot := by
        intro other member slot
        obtain ⟨present, differs⟩ := old other member
        rw [Tree.child?, Tree.childrenIn, Tree.children, remade.shapes present differs]
        rfl
      have remain : ∀ other ∈ rest, other ∈ items.replace item new
          ∧ ∃ value, middle.child? other .value = some value := by
        intro other member
        obtain ⟨inner, otherValue, holds⟩ := stand other (List.mem_cons_of_mem _ member)
        refine ⟨?_, otherValue, (same other inner _).trans holds⟩
        have differs : other ≠ item := fun same => apart (same ▸ member)
        have child := swapped.children.mpr
          (Or.inr ⟨Tree.child_of_array read inner, differs⟩)
        rw [Tree.children_of_shape? stored] at child
        exact (Shape.mem_tagged.mp child).2
      have still := swapped.reworked
      obtain ⟨after, news, wrapsRest, reworked, remadeRest, storedRest, rewrapped⟩ :=
        ih nodupRest still.tidy (Tree.grown still.size inside) stored remain
      have unrolled : (item :: rest).forM config.wrapItem
          = config.wrapItem item >>= fun _ => rest.forM config.wrapItem := rfl
      refine ⟨after, news, ?_, still.trans inside reworked,
        (remade.trans remadeRest).weaken (by simp), storedRest, ?_⟩
      · rw [unrolled, run_bind_ok wraps, wrapsRest]
      have nodupItems : items.Nodup := (tidy.keeps .self).nodup_tagged slots
      have fresh : new ∉ rest := by
        intro later
        cases wrapped with
        | kept other => exact other List.mem_cons_self
        | wrapped _ _ absent => exact absent (old _ (stand _ (List.mem_cons_of_mem _ later)).1).1
      exact forall₂_rewrapped nodupItems wrapped apart fresh remade.size same
        (remadeRest.keeps inside) rewrapped

/-! ### Lists of arguments -/

structure Collected (config : WrapArguments) (before : Tree) (call : NodeId) (values : List NodeId)
    (after : Tree) : Prop where
  passes : ∃ target method old list argument object nullsafe,
    before.shape? call = some (.methodCall target method old nullsafe)
      ∧ after.shape? call = some (.methodCall target method list nullsafe)
      ∧ ¬ before.contains list ∧ after.shape? list = some (.argumentList [argument])
      ∧ Carries before object argument after ∧ Object config before values object after

theorem run_wrapValues_remade (config : WrapArguments) (tidy : tree.Tidy call)
    (kind : tree.kind? call = some .methodCall) {values : List NodeId}
    (stands : (Contents.values values).Stands tree call) :
    ∃ after, (config.wrapValues call values).run tree = (.ok (), after)
      ∧ tree.Reworked call after call ∧ tree.Remade [call] after
      ∧ Collected config tree call values after := by
  have present : ∀ value ∈ values, tree.contains value := by
    obtain ⟨list, held, _, placed⟩ := stands
    intro value member
    obtain ⟨argument, among, holds⟩ := placed value member
    exact tidy.contains_child (.child (.child .self (Tree.child_of_child? held)) among) holds
  obtain ⟨old, object, middle, list, next, after, held, wraps, lists, replaces, ran, reworked⟩ :=
    run_wrapValues config tidy stands
  obtain ⟨_, _, also, extended, made⟩ := run_object config (.refl tree) present
  -- Both lemmas tell of one run, so that they speak of one object.
  cases wraps.symm.trans also
  have inside : ∀ value ∈ [object], middle.contains value := by
    intro value member
    obtain ⟨_, _, _, creates, _⟩ := made.made
    cases List.mem_singleton.mp member
    exact Tree.contains_of_shape? creates
  obtain ⟨_, _, arguments, alsoLists, further, fresh, shaped, carried⟩ := run_arguments extended inside
  cases lists.symm.trans alsoLists
  have grown := extended.trans further
  obtain ⟨target, method, other, nullsafe, found⟩ := Tree.shape?_of_methodCall kind
  have slot : tree.child? call .arguments = some other := by
    rw [Tree.child?, Tree.childrenIn, Tree.children_of_shape? found]
    rfl
  cases held.symm.trans slot
  have leaving := tidy.contains_child .self (Tree.child_of_child? held)
  have differ : old ≠ list := by
    rintro rfl
    exact fresh leaving
  obtain ⟨_, alsoReplaces, remade, stored⟩ := Tree.run_replaceAt_remade
    ⟨call, .arguments⟩ (grown.shape? found) rfl differ
    (show (Storage.one old).replace? old list = some (.one list) from if_pos rfl)
    (grown.contains leaving) (Tree.contains_of_shape? shaped)
  cases replaces.symm.trans alsoReplaces
  have called := Tree.contains_of_shape? found
  obtain ⟨argument, _, carries, rest, rfl⟩ := List.forall₂_cons_left_iff.mp carried
  cases rest
  refine ⟨after, ran, reworked, grown.remade.trans remade, ⟨target, method, old, list, argument,
    object, nullsafe, found, stored, fresh, remade.keeps called fresh shaped,
    carries.later (remade.keeps called), ?_⟩⟩
  exact made.later fun absent read => remade.keeps called absent (further.shape? read)

/-! ### What there is to wrap -/

theorem needsWrap_iff {item : NodeId} : config.needsWrap tree item = true
    ↔ ∃ key value, tree.shape? item = some (.arrayItem key value false)
      ∧ config.isWrapped tree value = false := by
  unfold needsWrap
  split
  · next key value read => simp [read]
  · next other =>
      refine ⟨nofun, ?_⟩
      rintro ⟨key, value, read, _⟩
      exact absurd read (other key value)

/-- The value is wrapped, or it is an array with nothing left to wrap. -/
def Settled (config : WrapArguments) (tree : Tree) (value : NodeId) : Prop :=
  (∃ items legacy, tree.shape? value = some (.array items legacy)
      ∧ ∀ item ∈ items, ∀ key inner, tree.shape? item = some (.arrayItem key inner false) →
        config.isWrapped tree inner = true)
    ∨ config.isWrapped tree value = true

theorem not_isWrapped_array {array : NodeId} {items : List NodeId} {legacy : Bool}
    (read : tree.shape? array = some (.array items legacy)) : config.isWrapped tree array = false := by
  rw [isWrapped, Tree.kind?_of_shape? read]
  rfl

theorem settled_array_iff {array : NodeId} {items : List NodeId} {legacy : Bool}
    (read : tree.shape? array = some (.array items legacy)) :
    config.Settled tree array ↔ ∀ item ∈ items, config.needsWrap tree item = false := by
  constructor
  · rintro (⟨others, _, same, settled⟩ | wrapped) item member
    · cases read.symm.trans same
      refine Bool.eq_false_iff.mpr fun needs => ?_
      obtain ⟨key, value, shaped, still⟩ := needsWrap_iff.mp needs
      rw [settled item member key value shaped] at still
      cases still
    · rw [not_isWrapped_array read] at wrapped
      cases wrapped
  · intro none
    refine Or.inl ⟨items, legacy, read, ?_⟩
    intro item member key value shaped
    refine Classical.byContradiction fun unwrapped => ?_
    have needs := needsWrap_iff.mpr ⟨key, value, shaped, Bool.eq_false_iff.mpr unwrapped⟩
    rw [none item member] at needs
    cases needs

/-- Where a call has nothing to wrap. -/
theorem contents_eq_nothing_iff : config.contents tree call = .nothing
    ↔ ∀ first, tree.positionalValue? call 0 = some first → config.Settled tree first := by
  unfold contents
  cases passed : tree.positionalValue? call 0 with
  | none => simp
  | some first =>
      simp only [Option.some.injEq, forall_eq']
      split
      · next items legacy read =>
          have filtered : (∀ item ∈ items, config.needsWrap tree item = false)
              ↔ items.filter (config.needsWrap tree) = [] := by
            simp [List.filter_eq_nil_iff]
          rw [settled_array_iff read, filtered]
          split
          · next none => exact ⟨fun _ => none, fun _ => rfl⟩
          · next some => exact ⟨nofun, fun none => absurd none some⟩
      · next other =>
          split
          · next wrapped => exact ⟨fun _ => Or.inr wrapped, fun _ => rfl⟩
          · next unwrapped =>
              refine ⟨nofun, ?_⟩
              rintro (⟨items, legacy, read, _⟩ | wrapped)
              · exact absurd read (other items legacy)
              · exact absurd wrapped unwrapped

theorem contents_eq_items {left : List NodeId} (reads : config.contents tree call = .items left) :
    ∃ array items legacy, tree.positionalValue? call 0 = some array
      ∧ tree.shape? array = some (.array items legacy)
      ∧ left = items.filter (config.needsWrap tree) := by
  unfold contents at reads
  split at reads
  · cases reads
  · next first passed =>
      split at reads
      · next items legacy read =>
          split at reads <;> cases reads
          exact ⟨first, items, legacy, passed, read, rfl⟩
      · split at reads <;> cases reads

theorem contents_eq_values_iff {values : List NodeId} : config.contents tree call = .values values
    ↔ ∃ first, tree.positionalValue? call 0 = some first ∧ tree.kind? first ≠ some .array
      ∧ config.isWrapped tree first = false
      ∧ values = first :: (tree.positionalValue? call 1).toList := by
  constructor
  · intro reads
    unfold contents at reads
    split at reads
    · cases reads
    · next first passed =>
        split at reads
        · split at reads <;> cases reads
        · next other =>
            split at reads <;> cases reads
            next unwrapped =>
              refine ⟨first, passed, ?_, Bool.eq_false_iff.mpr unwrapped, rfl⟩
              intro kind
              obtain ⟨shape, found, same⟩ := Option.map_eq_some_iff.mp kind
              cases shape with
              | array items legacy => exact other items legacy found
              | _ => cases same
  · rintro ⟨first, passed, other, unwrapped, rfl⟩
    rw [contents, passed]
    dsimp only
    split
    · next found => exact absurd (Tree.kind?_of_shape? found) other
    · rw [if_neg (by rw [unwrapped]; exact Bool.false_ne_true)]

/-! ### The rule -/

/-- What became of a call and its contents. Beside what is told here only the name of the call may
have changed. -/
inductive Fills (config : WrapArguments) (before : Tree) (call method : NodeId) (after : Tree) :
    Contents → Prop
  | nothing (remade : before.Remade [method] after) : Fills config before call method after .nothing
  | items {array : NodeId} {items news left : List NodeId} {legacy : Bool}
      (remade : before.Remade [method, array] after)
      (passed : before.positionalValue? call 0 = some array)
      (read : before.shape? array = some (.array items legacy))
      (stored : after.shape? array = some (.array news legacy))
      (rewrapped : List.Forall₂ (Rewrapped config before left after) items news) :
      Fills config before call method after (.items left)
  | values {values : List NodeId} (remade : before.Remade [method, call] after)
      (collected : Collected config before call values after) :
      Fills config before call method after (.values values)

section

variable {method : NodeId} {title : String}

theorem not_mem_of_name (spelled : tree.shape? method = some (.name title)) {id : NodeId}
    {shape : Shape} (found : tree.shape? id = some shape) (other : shape.kind ≠ .name) :
    id ∉ [method] := by
  intro member
  cases List.mem_singleton.mp member
  cases found.symm.trans spelled
  exact other rfl

/-! The contents are filled after the call may have been given another name. -/

variable (spelled : tree.shape? method = some (.name title)) (tidyMiddle : middle.Tidy call)
variable (renamed : tree.Remade [method] middle)

include spelled renamed in
/-- Slots are as they were. -/
theorem children_renamed {holder : NodeId} {child : Slot × NodeId}
    (held : child ∈ tree.children holder) : child ∈ middle.children holder := by
  obtain ⟨shape, found, member⟩ := Tree.shape?_of_child held
  have holds : shape.kind ≠ .name := by
    intro named
    cases shape with
    | name => cases member
    | _ => cases named
  rw [Tree.children_of_shape? (renamed.shape? found (not_mem_of_name spelled found holds))]
  exact member

include spelled tidyMiddle renamed

theorem run_fills_items (config : WrapArguments) (inside : tree.contains call) {left : List NodeId}
    (reads : config.contents tree call = .items left) :
    ∃ after, (left.forM config.wrapItem).run middle = (.ok (), after)
      ∧ middle.Reworked call after call ∧ after.shape? method = middle.shape? method
      ∧ Fills config tree call method after (.items left) := by
  obtain ⟨array, items, legacy, passed, read, rfl⟩ := contents_eq_items reads
  have kept : ∀ {holder child}, child ∈ tree.children holder → child ∈ middle.children holder :=
    fun held => children_renamed spelled renamed held
  have other : ∀ {id shape}, tree.shape? id = some shape → shape.kind ≠ .name → id ∉ [method] :=
    fun found => not_mem_of_name spelled found
  obtain ⟨slot, list, argument, listed, among, holds⟩ := Tree.held_of_positionalValue? passed
  have below : middle.Below call array := .child (.child (.child .self (kept listed)) (kept among))
    (kept holds)
  have stored := renamed.shape? read (other read (by rintro ⟨⟩))
  have slots : middle.children array = Shape.tagged .item items := Tree.children_of_shape? stored
  have keeps := (tidyMiddle.keeps below).nodup_tagged slots
  have same : ∀ item ∈ items.filter (config.needsWrap tree), ∀ slot,
      middle.child? item slot = tree.child? item slot := by
    intro item member slot
    obtain ⟨key, value, shaped, _⟩ := needsWrap_iff.mp (List.mem_filter.mp member).2
    have still := renamed.shapes (Tree.contains_of_shape? shaped) (other shaped (by rintro ⟨⟩))
    rw [Tree.child?, Tree.childrenIn, Tree.children, still]
    rfl
  have stand : ∀ item ∈ items.filter (config.needsWrap tree), item ∈ items
      ∧ ∃ value, middle.child? item .value = some value := by
    intro item member
    obtain ⟨among, needs⟩ := List.mem_filter.mp member
    obtain ⟨key, value, shaped, _⟩ := needsWrap_iff.mp needs
    exact ⟨among, value, (same item member _).trans (Tree.child?_of_arrayItem shaped).2⟩
  -- What is to be wrapped was read before the call was renamed, and is still there.
  have contained := tidyMiddle.contains_below (renamed.contains inside) below
  obtain ⟨after, news, wraps, reworked, remade, filled, rewrapped⟩ := run_wrapItems_remade config
    (keeps.sublist List.filter_sublist) (tidyMiddle.sub below) contained stored stand
  have spells : middle.contains method := renamed.contains (Tree.contains_of_shape? spelled)
  refine ⟨after, wraps, reworked.lift tidyMiddle below (renamed.contains inside),
    remade.shapes spells fun member => ?_, .items (renamed.trans remade) passed read filled ?_⟩
  · exact other read (by rintro ⟨⟩) (by simpa [eq_comm] using member)
  · exact rewrapped.imp fun item _ turned => turned.earlier renamed.size (same item)

theorem run_fills_values (config : WrapArguments) (kind : tree.kind? call = some .methodCall)
    {values : List NodeId} (stands : (Contents.values values).Stands middle call) :
    ∃ after, (config.wrapValues call values).run middle = (.ok (), after)
      ∧ middle.Reworked call after call ∧ after.shape? method = middle.shape? method
      ∧ Fills config tree call method after (.values values) := by
  obtain ⟨_, _, _, _, early⟩ := Tree.shape?_of_methodCall kind
  have apart : call ∉ [method] := not_mem_of_name spelled early (by rintro ⟨⟩)
  have called : middle.kind? call = some .methodCall :=
    Tree.kind?_of_shape? (renamed.shape? early apart)
  obtain ⟨after, wraps, reworked, remade, ⟨target, name, old, list, argument, object, nullsafe,
    found, stored, fresh, listed, carries, made⟩⟩ :=
    run_wrapValues_remade config tidyMiddle called stands
  have absent : ∀ {id}, ¬ middle.contains id → ¬ tree.contains id :=
    fun fresh early => fresh (renamed.contains early)
  have spells : middle.contains method := renamed.contains (Tree.contains_of_shape? spelled)
  refine ⟨after, wraps, reworked, remade.shapes spells fun member => ?_,
    .values (renamed.trans remade) ⟨target, name, old, list, argument, object, nullsafe, ?_, stored,
      absent fresh, listed, ⟨absent carries.1, carries.2⟩, made.earlier renamed.size⟩⟩
  · exact apart (by simpa [eq_comm] using member)
  · rw [early, ← found, renamed.shape? early apart]

theorem run_fills (config : WrapArguments) (kind : tree.kind? call = some .methodCall)
    (stands : (config.contents tree call).Stands middle call) :
    ∃ after, (match config.contents tree call with
        | .nothing => pure .unchanged
        | .items left => do
            left.forM config.wrapItem
            pure .unchanged
        | .values passed => do
            config.wrapValues call passed
            pure .unchanged : RuleStep Verdict).run middle = (.ok .unchanged, after)
      ∧ middle.Reworked call after call ∧ after.shape? method = middle.shape? method
      ∧ Fills config tree call method after (config.contents tree call) := by
  cases reads : config.contents tree call with
  | nothing => exact ⟨middle, rfl, tidyMiddle.reworked, rfl, .nothing renamed⟩
  | items left =>
      obtain ⟨after, wraps, filled⟩ := run_fills_items spelled tidyMiddle renamed config
        (Tree.contains_of_kind? kind) reads
      exact ⟨after, run_bind_ok wraps _, filled⟩
  | values passed =>
      rw [reads] at stands
      obtain ⟨after, wraps, filled⟩ :=
        run_fills_values spelled tidyMiddle renamed config kind stands
      exact ⟨after, run_bind_ok wraps _, filled⟩

end

theorem Fills.child?_method {method : NodeId} {contents : Contents} {title : String}
    (fills : Fills config before call method after contents)
    (kind : before.kind? call = some .methodCall) (held : before.child? call .method = some method)
    (spelled : before.shape? method = some (.name title)) : after.child? call .method = some method := by
  obtain ⟨target, name, list, nullsafe, found⟩ := Tree.shape?_of_methodCall kind
  have methods : ∀ {tree : Tree} {list : NodeId}, tree.shape? call
      = some (.methodCall target name list nullsafe) → tree.child? call .method = some name := by
    intro tree list read
    rw [Tree.child?, Tree.childrenIn, Tree.children_of_shape? read]
    rfl
  cases held.symm.trans (methods found)
  have apart : call ≠ method := by
    rintro rfl
    cases found.symm.trans spelled
  cases fills with
  | nothing remade => exact methods (remade.shape? found (by simpa using apart))
  | items remade _ read =>
      refine methods (remade.shape? found ?_)
      rintro member
      rcases List.mem_pair.mp member with same | rfl
      · exact apart same
      · cases found.symm.trans read
  | values _ collected =>
      obtain ⟨_, _, _, _, _, _, _, early, stored, _⟩ := collected
      cases found.symm.trans early
      exact methods stored

theorem plan_eq_some_iff {plan : Plan} : config.plan tree call = some plan
    ↔ ∃ title newName, tree.callName? call = some title ∧ config.methods.find? title = some newName
      ∧ plan.rename = (if newName ≠ "" ∧ newName ≠ title then some newName else none)
      ∧ plan.contents = config.contents tree call
      ∧ (plan.rename.isSome ∨ plan.contents ≠ .nothing) := by
  obtain ⟨rename, contents⟩ := plan
  constructor
  · intro planned
    obtain ⟨title, named, found⟩ := Option.bind_eq_some_iff.mp planned
    obtain ⟨newName, looked, given⟩ := Option.bind_eq_some_iff.mp found
    dsimp only at given
    obtain ⟨some, same⟩ := Option.ite_none_right_eq_some.mp given
    cases same
    exact ⟨title, newName, named, looked, rfl, rfl, some⟩
  · rintro ⟨title, newName, named, looked, rfl, rfl, some⟩
    rw [plan, named, Option.bind_eq_bind, Option.bind_some, looked, Option.bind_some]
    exact if_pos some

/-- A call that is left alone: its name is not in the table, or it keeps its name and has nothing to
wrap. -/
theorem plan_eq_none_iff : config.plan tree call = none
    ↔ ∀ title newName, tree.callName? call = some title → config.methods.find? title = some newName →
      (newName = "" ∨ newName = title) ∧ config.contents tree call = .nothing := by
  constructor
  · intro idle title newName named looked
    refine Classical.byContradiction fun busy => ?_
    have planned : config.plan tree call
        = some ⟨if newName ≠ "" ∧ newName ≠ title then some newName else none,
          config.contents tree call⟩ := by
      refine plan_eq_some_iff.mpr ⟨title, newName, named, looked, rfl, rfl, ?_⟩
      by_cases empty : newName = "" <;> by_cases same : newName = title <;> simp_all
    rw [idle] at planned
    cases planned
  · intro idle
    rw [Option.eq_none_iff_forall_ne_some]
    intro plan planned
    obtain ⟨title, newName, named, looked, renames, contents, some⟩ := plan_eq_some_iff.mp planned
    obtain ⟨kept, nothing⟩ := idle title newName named looked
    have unnamed : ¬ (newName ≠ "" ∧ newName ≠ title) :=
      fun differs => kept.elim differs.1 differs.2
    rw [renames, contents, if_neg unnamed, nothing] at some
    rcases some with given | given
    · cases given
    · exact given rfl

/-- Applied to a call that has a plan the rule answers and does what is planned. -/
theorem run_apply (config : WrapArguments) (tidy : tree.Tidy call)
    (kind : tree.kind? call = some .methodCall) {plan : Plan}
    (planned : config.plan tree call = some plan) :
    ∃ after title method, (config.apply call).run tree = (.ok .unchanged, after)
      ∧ tree.Reworked call after call ∧ tree.callName? call = some title
      ∧ tree.child? call .method = some method ∧ tree.shape? method = some (.name title)
      ∧ after.callName? call = some (plan.rename.getD title)
      ∧ Fills config tree call method after plan.contents := by
  rw [apply, run_bind_ok (RuleStep.run_get tree), planned]
  obtain ⟨title, newName, named, _, renames, contents, _⟩ := plan_eq_some_iff.mp planned
  obtain ⟨rename, _⟩ := plan
  cases contents
  obtain ⟨_, slot, method, read, slotted, held, spelled⟩ := Tree.callName?_eq_some named
  cases kind.symm.trans read
  cases slotted
  have inside := Tree.contains_of_child (Tree.child_of_child? held)
  have stands := stands_contents config tidy kind
  -- Whatever is wrapped then, the name stays as it was set first.
  have finished : ∀ {middle after : Tree} {name : String}, middle.shape? method = some (.name name) →
      after.shape? method = middle.shape? method → tree.Reworked call after call →
      Fills config tree call method after (config.contents tree call) →
      after.callName? call = some name := by
    intro middle after name spells still reworked fills
    rw [Tree.callName?_of_kind ((reworked.kinds inside).trans kind) rfl,
      fills.child?_method kind held spelled, Option.bind_some, Tree.spelledName?, still, spells]
  dsimp only at renames ⊢
  cases rename with
  | none =>
      obtain ⟨after, ran, reworked, still, fills⟩ := run_fills spelled tidy
        ⟨Nat.le_refl _, fun _ _ => rfl⟩ config kind stands
      exact ⟨after, title, method, ran, reworked, named, held, spelled,
        finished spelled still reworked fills, fills⟩
  | some chosen =>
      have differs : chosen ≠ title := by
        obtain ⟨told, same⟩ := Option.ite_none_right_eq_some.mp renames.symm
        cases same
        exact told.2
      obtain ⟨middle, sets, renamed⟩ := Tree.run_rename tidy inside held spelled chosen
      obtain ⟨_, also, remade, spells⟩ := Tree.run_setName_remade spelled differs
      cases sets.symm.trans also
      obtain ⟨after, ran, reworked, still, fills⟩ := run_fills spelled
        renamed.reworked.tidy remade config kind (stands.renamed renamed spelled)
      have whole := renamed.reworked.trans inside reworked
      refine ⟨after, title, method, ?_, whole, named, held, spelled,
        finished spells still whole fills, fills⟩
      rw [held]
      dsimp only
      rw [run_bind_ok (RuleStep.run_lift sets)]
      exact ran

/-! ### What the rule leaves alone -/

/-- Nodes keep their kinds. Only the call, its name, and an array that it passes may hold or spell
something else. -/
structure Spares (before : Tree) (call method : NodeId) (after : Tree) : Prop where
  called : before.kind? call = some .methodCall
  held : before.child? call .method = some method
  named : before.kind? method = some .name
  kinds : ∀ {id}, before.contains id → after.kind? id = before.kind? id
  still : ∀ {id}, before.contains id → id ≠ call → id ≠ method →
    (before.kind? id = some .array → before.positionalValue? call 0 ≠ some id) →
      after.shape? id = before.shape? id

theorem Fills.spares {method : NodeId} {contents : Contents} {title : String}
    (fills : Fills config before call method after contents)
    (reworked : before.Reworked call after call) (called : before.kind? call = some .methodCall)
    (held : before.child? call .method = some method)
    (spelled : before.shape? method = some (.name title)) : Spares before call method after where
  called := called
  held := held
  named := Tree.kind?_of_shape? spelled
  kinds := reworked.kinds
  still {id} inside apart other spared := by
    cases fills with
    | nothing remade => exact remade.shapes inside (by simpa using other)
    | items remade passed read =>
        apply remade.shapes inside
        intro member
        rcases List.mem_pair.mp member with same | rfl
        · exact other same
        · exact spared (Tree.kind?_of_shape? read) passed
    | values remade => exact remade.shapes inside (by simp [apart, other])

namespace Spares

variable {method id : NodeId} (spares : Spares before call method after)
include spares

/-- A node of another kind than these three. -/
theorem shape? {kind : Kind} (found : before.kind? id = some kind) (name : kind ≠ .name)
    (calls : kind ≠ .methodCall) (array : kind ≠ .array) : after.shape? id = before.shape? id := by
  apply spares.still (Tree.contains_of_kind? found)
  · rintro rfl
    exact calls (Option.some.inj (found.symm.trans spares.called))
  · rintro rfl
    exact name (Option.some.inj (found.symm.trans spares.named))
  · intro same
    exact absurd (Option.some.inj (found.symm.trans same)) array

/-- What is read off nodes of one kind only, where these are as they were. -/
theorem view {α : Type} (read : Tree → α) (kind : Kind) (blank : α)
    (elsewhere : ∀ tree : Tree, tree.kind? id ≠ some kind → read tree = blank)
    (inside : before.contains id) (same : before.kind? id = some kind → read after = read before) :
    read after = read before := by
  by_cases found : before.kind? id = some kind
  · exact same found
  · rw [elsewhere before found, elsewhere after (by rwa [spares.kinds inside])]

theorem spelledName? (inside : before.contains id) (other : id ≠ method) :
    after.spelledName? id = before.spelledName? id := by
  refine spares.view (fun tree => tree.spelledName? id) .name none ?_ inside fun name => ?_
  · intro tree unnamed
    unfold Tree.spelledName?
    split
    · next found => exact absurd (Tree.kind?_of_shape? found) unnamed
    · rfl
  · rw [Tree.spelledName?, spares.still inside _ other, Tree.spelledName?]
    · intro array
      cases name.symm.trans array
    · rintro rfl
      cases spares.called.symm.trans name

theorem plainValue? (inside : before.contains id) : after.plainValue? id = before.plainValue? id := by
  refine spares.view (fun tree => tree.plainValue? id) .argument none ?_ inside fun argument => ?_
  · intro tree other
    unfold Tree.plainValue?
    split
    · next found => exact absurd (Tree.kind?_of_shape? found) other
    · rfl
  · rw [Tree.plainValue?, spares.shape? argument (by decide) (by decide) (by decide), Tree.plainValue?]

/-- What lists that are there have in them. -/
theorem childrenIn (inside : before.contains id) :
    after.childrenIn id .argument = before.childrenIn id .argument := by
  refine spares.view (fun tree => tree.childrenIn id .argument) .argumentList [] ?_ inside fun list => ?_
  · intro tree other
    refine List.eq_nil_iff_forall_not_mem.mpr fun argument member => ?_
    exact other (Tree.kind_of_argument (Tree.mem_childrenIn.mp member))
  · rw [Tree.childrenIn, Tree.children, spares.shape? list (by decide) (by decide) (by decide)]
    rfl

theorem children_other {other : NodeId} (kind : before.kind? other = some .methodCall)
    (differs : other ≠ call) : after.children other = before.children other := by
  have inside := Tree.contains_of_kind? kind
  rw [Tree.children, spares.still inside differs, Tree.children]
  · rintro rfl
    cases spares.named.symm.trans kind
  · intro array
    cases kind.symm.trans array

section

variable {top : NodeId} (tidy : before.Tidy top)
include tidy

/-- A call that holds the same list, this one or another, passes the same values. -/
theorem positionalValue?_of_children {other : NodeId} (kind : before.kind? other = some .methodCall)
    (below : before.Below top other) (same : after.children other = before.children other)
    (position : Nat) :
    after.positionalValue? other position = before.positionalValue? other position := by
  have inside := Tree.contains_of_kind? kind
  have calls : before.IsCall other ∧ after.IsCall other := by
    rw [Tree.IsCall, Tree.IsCall, spares.kinds inside, kind]
    exact ⟨rfl, rfl⟩
  have listed : after.arguments other = before.arguments other := by
    have holds : after.child? other .arguments = before.child? other .arguments := by
      rw [Tree.child?, Tree.childrenIn, same]
      rfl
    rw [calls.1.arguments_eq, calls.2.arguments_eq, holds]
    cases found : before.child? other .arguments with
    | none => rfl
    | some list => exact spares.childrenIn (tidy.contains_child below (Tree.child_of_child? found))
  rw [Tree.positionalValue?_eq, listed, Tree.positionalValue?_eq]
  cases found : (before.arguments other)[position]? with
  | none => rfl
  | some argument =>
      have member := List.mem_of_getElem? found
      obtain ⟨list, holds, same⟩ := Tree.list_of_argument member
      rw [same, Tree.mem_childrenIn] at member
      exact spares.plainValue?
        (tidy.contains_child (below.child (Tree.child_of_child? holds)) member)

variable (reached : before.Below top call)
include reached

theorem isWrapped (below : before.Below top id) (inside : before.contains id) :
    config.isWrapped after id = config.isWrapped before id := by
  rw [WrapArguments.isWrapped, spares.kinds inside, WrapArguments.isWrapped]
  by_cases new : before.kind? id = some .new
  · have same : after.child? id .className = before.child? id .className := by
      have same := spares.shape? new (by decide) (by decide) (by decide)
      rw [Tree.child?, Tree.childrenIn, Tree.children, same]
      rfl
    have spelled : after.instantiatedClass? id = before.instantiatedClass? id := by
      rw [Tree.instantiatedClass?, same, Tree.instantiatedClass?]
      cases found : before.child? id .className with
      | none => rfl
      | some title =>
          have child := Tree.child_of_child? found
          apply spares.spelledName? (tidy.contains_child below child)
          rintro rfl
          cases (tidy.holder_eq below reached child (Tree.child_of_child? spares.held) rfl).2
    rw [spelled]
  · have plain : (before.kind? id == some .new) = false := by simpa using new
    rw [plain, Bool.false_and, Bool.false_and]

theorem needsWrap (below : before.Below top id) (inside : before.contains id) :
    config.needsWrap after id = config.needsWrap before id := by
  by_cases item : before.kind? id = some .arrayItem
  · have same := spares.shape? item (by decide) (by decide) (by decide)
    rw [WrapArguments.needsWrap, same, WrapArguments.needsWrap]
    split
    · next value shaped =>
        have child : (Slot.value, value) ∈ before.children id :=
          Tree.child_of_child? (Tree.child?_of_arrayItem shaped).2
        rw [spares.isWrapped tidy reached (below.child child) (tidy.contains_child below child)]
    · rfl
  · have plain : ∀ {tree : Tree}, tree.kind? id ≠ some .arrayItem →
        config.needsWrap tree id = false := by
      intro tree other
      refine Bool.eq_false_iff.mpr fun needs => ?_
      obtain ⟨_, _, shaped, _⟩ := needsWrap_iff.mp needs
      exact other (Tree.kind?_of_shape? shaped)
    rw [plain item, plain (by rwa [spares.kinds inside])]

/-- Where nothing is left to wrap it stays so. -/
theorem settled (below : before.Below top id) (inside : before.contains id)
    (array : before.kind? id = some .array → after.shape? id = before.shape? id)
    (settled : config.Settled before id) : config.Settled after id := by
  rcases settled with ⟨items, legacy, read, wrapped⟩ | wrapped
  · have done := (settled_array_iff read).mp (Or.inl ⟨items, legacy, read, wrapped⟩)
    refine (settled_array_iff ((array (Tree.kind?_of_shape? read)).trans read)).mpr ?_
    intro item member
    have child := Tree.child_of_array read member
    rw [spares.needsWrap tidy reached (below.child child) (tidy.contains_child below child)]
    exact done item member
  · right
    rw [spares.isWrapped tidy reached below inside]
    exact wrapped

/-! Another call. -/

variable {other : NodeId} (kind : before.kind? other = some .methodCall) (differs : other ≠ call)
  (below : before.Below top other)
include kind differs below

theorem callName?_other : after.callName? other = before.callName? other := by
  have inside := Tree.contains_of_kind? kind
  have same : after.child? other .method = before.child? other .method := by
    rw [Tree.child?, Tree.childrenIn, spares.children_other kind differs]
    rfl
  rw [Tree.callName?_of_kind ((spares.kinds inside).trans kind) rfl, same,
    Tree.callName?_of_kind kind rfl]
  cases found : before.child? other .method with
  | none => rfl
  | some callee =>
      have child := Tree.child_of_child? found
      apply spares.spelledName? (tidy.contains_child below child)
      rintro rfl
      exact differs (tidy.holder_eq below reached child (Tree.child_of_child? spares.held) rfl).1

theorem contents_other (nothing : config.contents before other = .nothing) :
    config.contents after other = .nothing := by
  rw [contents_eq_nothing_iff] at nothing ⊢
  intro first passed
  rw [spares.positionalValue?_of_children tidy kind below (spares.children_other kind differs)]
    at passed
  have inner := below.trans (Tree.below_of_positionalValue? passed)
  obtain ⟨_, _, _, listed, among, holds⟩ := Tree.held_of_positionalValue? passed
  have inside := tidy.contains_child ((below.child listed).child among) holds
  refine spares.settled tidy reached inner inside (fun array => ?_) (nothing first passed)
  apply spares.still inside
  · rintro rfl
    cases spares.called.symm.trans array
  · rintro rfl
    cases spares.named.symm.trans array
  · -- An array is passed by one call only.
    exact fun _ also => differs (tidy.passer_eq below reached passed also)

end

end Spares

/-- Items that stayed needed nothing, and the value of a new one is a new object. -/
theorem Spares.needsWrap_rewrapped {method top array : NodeId}
    (spares : Spares before call method after) (tidy : before.Tidy top)
    (reached : before.Below top call) (below : before.Below top array) {items news : List NodeId}
    {legacy : Bool} (read : before.shape? array = some (.array items legacy))
    (rewrapped : List.Forall₂ (Rewrapped config before (items.filter (config.needsWrap before)) after)
      items news) : ∀ new ∈ news, config.needsWrap after new = false := by
  intro new member
  obtain ⟨index, listed⟩ := List.getElem?_of_mem member
  obtain ⟨item, there, turned⟩ := rewrapped.getElem?_right listed
  cases turned with
  | kept other =>
      have child := Tree.child_of_array read (List.mem_of_getElem? there)
      rw [spares.needsWrap tidy reached (below.child child) (tidy.contains_child below child)]
      refine Bool.eq_false_iff.mpr fun needs => ?_
      exact other (List.mem_filter.mpr ⟨List.mem_of_getElem? there, needs⟩)
  | wrapped _ _ _ shaped made =>
      rw [WrapArguments.needsWrap, shaped]
      dsimp only
      rw [made.isWrapped, Bool.not_true]

theorem Collected.passes_object {values : List NodeId}
    (collected : Collected config before call values after) :
    ∃ object, after.positionalValue? call 0 = some object ∧ config.isWrapped after object := by
  obtain ⟨target, name, old, list, argument, object, nullsafe, _, stored, _, listed, carries, made⟩ :=
    collected
  have holds : after.child? call .arguments = some list := by
    rw [Tree.child?, Tree.childrenIn, Tree.children_of_shape? stored]
    rfl
  have called : after.IsCall call := by
    rw [Tree.IsCall, Tree.kind?_of_shape? stored]
    rfl
  refine ⟨object, ?_, made.isWrapped⟩
  rw [Tree.positionalValue?_eq, called.arguments_eq, holds]
  dsimp only
  rw [Tree.childrenIn, Tree.children_of_shape? listed]
  exact Tree.plainValue?_eq_some.mpr carries.2

/-- After the rule was applied to a call it has nothing to wrap. -/
theorem Fills.nothing_left {method top : NodeId} (spares : Spares before call method after)
    (tidy : before.Tidy top) (reached : before.Below top call)
    (fills : Fills config before call method after (config.contents before call)) :
    config.contents after call = .nothing := by
  have apart : call ≠ method := by
    rintro rfl
    cases spares.called.symm.trans spares.named
  have inside := Tree.contains_of_kind? spares.called
  rw [contents_eq_nothing_iff]
  intro first passed
  generalize reads : config.contents before call = contents at fills
  cases fills with
  | nothing remade =>
      have same : after.children call = before.children call := by
        rw [Tree.children, remade.shapes inside (by simpa using apart), Tree.children]
      rw [spares.positionalValue?_of_children tidy spares.called reached same] at passed
      have below := reached.trans (Tree.below_of_positionalValue? passed)
      obtain ⟨_, _, _, listed, among, holds⟩ := Tree.held_of_positionalValue? passed
      have contained := tidy.contains_child ((reached.child listed).child among) holds
      apply spares.settled tidy reached below contained (fun array => ?_)
      · exact contents_eq_nothing_iff.mp reads first passed
      · apply remade.shapes contained
        rintro member
        cases List.mem_singleton.mp member
        cases spares.named.symm.trans array
  | @items array items news left legacy remade held read stored rewrapped =>
      have same : after.children call = before.children call := by
        rw [Tree.children, remade.shapes inside, Tree.children]
        rintro member
        rcases List.mem_pair.mp member with same | rfl
        · exact apart same
        · cases spares.called.symm.trans (Tree.kind?_of_shape? read)
      rw [spares.positionalValue?_of_children tidy spares.called reached same] at passed
      -- The call passes the same array, whose items are all wrapped by now.
      cases held.symm.trans passed
      obtain ⟨_, others, _, also, found, rfl⟩ := contents_eq_items reads
      cases held.symm.trans also
      cases read.symm.trans found
      have below := reached.trans (Tree.below_of_positionalValue? held)
      exact (settled_array_iff stored).mpr
        (spares.needsWrap_rewrapped tidy reached below read rewrapped)
  | values _ collected =>
      obtain ⟨object, value, wrapped⟩ := collected.passes_object
      cases value.symm.trans passed
      exact Or.inr wrapped

end WrapArguments

end Codemod
