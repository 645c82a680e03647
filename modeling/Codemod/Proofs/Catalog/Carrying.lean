import Codemod.Proofs.Catalog.Wrapping

/-!
What the rule that wraps arguments carries over. The listing of a call before and after is compared
node by node: new nodes stand around old ones, and old ones that only held others go (`Relisted`). Main
statement: of the nodes below a call all stay, in their order, but those that are replaced and what is
below the arguments behind the values that are wrapped (`apply_carries`).
-/

namespace Codemod

open Step

namespace Tree

variable {before after tree : Tree} {keep : NodeId → Bool} {olds news others more : List NodeId}
variable {id old new top : NodeId}

theorem Preorder.unique {ids list other : List NodeId} (first : tree.Preorder ids list)
    (second : tree.Preorder ids other) : list = other := by
  induction first generalizing other with
  | nil =>
      cases second
      rfl
  | cons _ _ inner outer =>
      cases second with
      | cons innerAlso outerAlso => rw [inner innerAlso, outer outerAlso]

/-- Of the nodes that were there before, the listing of some nodes afterwards has those that are kept
of the listing of others before, in the same order. -/
def Relisted (before after : Tree) (keep : NodeId → Bool) (olds news : List NodeId) : Prop :=
  ∃ early late, before.Preorder olds early ∧ after.Preorder news late
    ∧ late.filter before.contains = early.filter keep

theorem relisted_nil : Relisted before after keep [] [] :=
  ⟨[], [], .nil, .nil, rfl⟩

namespace Relisted

theorem append (first : Relisted before after keep olds news)
    (second : Relisted before after keep others more) :
    Relisted before after keep (olds ++ others) (news ++ more) := by
  obtain ⟨early, late, listed, relisted, same⟩ := first
  obtain ⟨earlyRest, lateRest, listedRest, relistedRest, sameRest⟩ := second
  refine ⟨early ++ earlyRest, late ++ lateRest, listed.append listedRest,
    relisted.append relistedRest, ?_⟩
  rw [List.filter_append, List.filter_append, same, sameRest]

theorem cons (head : Relisted before after keep [old] [new])
    (rest : Relisted before after keep olds news) :
    Relisted before after keep (old :: olds) (new :: news) :=
  head.append rest

theorem forall₂ (each : List.Forall₂ (fun old new => Relisted before after keep [old] [new]) olds news) :
    Relisted before after keep olds news := by
  induction each with
  | nil => exact relisted_nil
  | cons head _ ih => exact head.cons ih

/-- A node that stays. -/
theorem stay (inside : before.contains id) (kept : keep id)
    (inner : Relisted before after keep ((before.children id).map Prod.snd)
      ((after.children id).map Prod.snd)) : Relisted before after keep [id] [id] := by
  obtain ⟨early, late, listed, relisted, same⟩ := inner
  refine ⟨id :: (early ++ []), id :: (late ++ []), .cons listed .nil, .cons relisted .nil, ?_⟩
  rw [List.filter_cons_of_pos inside, List.filter_cons_of_pos kept, List.append_nil, List.append_nil,
    same]

/-- A new node around others. -/
theorem enter (fresh : ¬ before.contains new)
    (inner : Relisted before after keep olds ((after.children new).map Prod.snd)) :
    Relisted before after keep olds [new] := by
  obtain ⟨early, late, listed, relisted, same⟩ := inner
  refine ⟨early, new :: (late ++ []), listed, .cons relisted .nil, ?_⟩
  rw [List.filter_cons_of_neg fresh, List.append_nil, same]

/-- An old node goes, and leaves what it held. -/
theorem leave (gone : keep old = false)
    (inner : Relisted before after keep ((before.children old).map Prod.snd) news) :
    Relisted before after keep [old] news := by
  obtain ⟨early, late, listed, relisted, same⟩ := inner
  refine ⟨old :: (early ++ []), late, .cons listed .nil, relisted, ?_⟩
  rw [List.filter_cons_of_neg (by simp [gone]), List.append_nil, same]

/-- Old nodes go that held one node each. -/
theorem leave_each {inner : List NodeId}
    (each : List.Forall₂ (fun old held => keep old = false ∧ (before.children old).map Prod.snd = [held])
      olds inner) (relisted : Relisted before after keep inner news) :
    Relisted before after keep olds news := by
  obtain ⟨early, late, listed, relisted, same⟩ := relisted
  suffices around : ∃ list, before.Preorder olds list ∧ list.filter keep = early.filter keep by
    obtain ⟨list, order, filtered⟩ := around
    exact ⟨list, late, order, relisted, same.trans filtered.symm⟩
  clear relisted same
  induction each generalizing early with
  | nil => exact ⟨early, listed, rfl⟩
  | @cons old held _ _ head _ ih =>
      obtain ⟨gone, children⟩ := head
      cases listed with
      | @cons _ _ below _ inner outer =>
          obtain ⟨rest, order, filtered⟩ := ih _ outer
          have whole : before.Preorder [held] (held :: (below ++ [])) := .cons inner .nil
          rw [← children] at whole
          refine ⟨old :: ((held :: (below ++ [])) ++ rest), .cons whole order, ?_⟩
          rw [List.filter_cons_of_neg (by simp [gone]), List.append_nil, List.cons_append,
            List.filter_cons, List.filter_cons, List.filter_append, List.filter_append, filtered]

/-- An old node goes with all that is below it. -/
theorem cut (tidy : before.Tidy old) (inside : before.contains old)
    (gone : ∀ {id}, before.Below old id → keep id = false) : Relisted before after keep [old] [] := by
  refine ⟨before.descendants old, [], tidy.preorder inside, .nil, ?_⟩
  rw [List.filter_nil, eq_comm, List.filter_eq_nil_iff]
  intro id member
  rw [gone (below_of_within member)]
  exact Bool.false_ne_true

theorem cut_each {others : List NodeId} (each : ∀ old ∈ others, Relisted before after keep [old] []) :
    Relisted before after keep others [] := by
  induction others with
  | nil => exact relisted_nil
  | cons old rest ih =>
      rw [List.forall_mem_cons] at each
      exact each.1.append (ih each.2)

theorem descendants (relisted : Relisted before after keep [top] [top]) (tidy : before.Tidy top)
    (inside : before.contains top) (tidyAfter : after.Tidy top) (present : after.contains top) :
    (after.descendants top).filter before.contains = (before.descendants top).filter keep := by
  obtain ⟨early, late, listed, relisted, same⟩ := relisted
  rw [(tidy.preorder inside).unique listed, (tidyAfter.preorder present).unique relisted, same]

end Relisted

/-- Going down over nodes that stay and hold what they held, to nodes that are relisted. -/
theorem Preorder.relisted (way : NodeId → Prop)
    (each : ∀ {id}, way id → Relisted before after keep [id] [id]
      ∨ before.contains id ∧ keep id ∧ after.children id = before.children id
        ∧ ∀ child ∈ before.children id, way child.2)
    {ids list : List NodeId} (order : before.Preorder ids list) (ways : ∀ id ∈ ids, way id) :
    Relisted before after keep ids ids := by
  induction order with
  | nil => exact relisted_nil
  | @cons id rest _ _ _ _ innerIh outerIh =>
      rw [List.forall_mem_cons] at ways
      refine Relisted.cons ?_ (outerIh ways.2)
      rcases each ways.1 with relisted | ⟨inside, kept, children, down⟩
      · exact relisted
      · apply Relisted.stay inside kept
        rw [children]
        apply innerIh
        intro child member
        obtain ⟨entry, held, rfl⟩ := List.mem_map.mp member
        exact down entry held

/-- A subtree in which nothing has changed. -/
theorem Tidy.relisted_still (tidy : before.Tidy top) (inside : before.contains top)
    (still : ∀ {id}, before.Below top id → keep id ∧ after.children id = before.children id) :
    Relisted before after keep [top] [top] := by
  refine (tidy.preorder inside).relisted (before.Below top) (fun below => Or.inr ?_)
    (by simp [Below.self])
  obtain ⟨kept, children⟩ := still below
  exact ⟨tidy.contains_below inside below, kept, children, fun _ held => below.child held⟩

/-- Around a node that is relisted nothing has changed. -/
theorem Tidy.relisted_around (tidy : before.Tidy top) (inside : before.contains top) {inner : NodeId}
    (reached : before.Below top inner) (changed : Relisted before after keep [inner] [inner])
    (still : ∀ {id}, before.Below top id → ¬ before.Below inner id →
      keep id ∧ after.children id = before.children id) : Relisted before after keep [top] [top] := by
  -- On the way down a node is the inner one, or it is not below that.
  refine (tidy.preorder inside).relisted
    (fun id => before.Below top id ∧ (before.Below inner id → id = inner)) ?_ ?_
  · rintro id ⟨below, way⟩
    by_cases same : id = inner
    · exact Or.inl (same ▸ changed)
    · have outside : ¬ before.Below inner id := fun above => same (way above)
      obtain ⟨kept, children⟩ := still below outside
      refine Or.inr ⟨tidy.contains_below inside below, kept, children, fun child held => ?_⟩
      refine ⟨below.child held, fun above => ?_⟩
      exact (tidy.holder_below below held reached above).resolve_right outside
  · intro id member
    cases List.mem_singleton.mp member
    refine ⟨.self, fun above => ?_⟩
    cases above with
    | self => rfl
    | child deep held => exact absurd rfl (tidy.topless (reached.trans deep) held)

/-- Nothing that a node holds is below another thing that it holds. -/
theorem Tidy.sibling_eq (tidy : tree.Tidy top) {parent : NodeId} {child other : Slot × NodeId}
    (below : tree.Below top parent) (held : child ∈ tree.children parent)
    (also : other ∈ tree.children parent) (inner : tree.Below child.2 other.2) : child.2 = other.2 :=
  Classical.byContradiction fun differs => tidy.disjoint below held also differs inner .self

theorem IsCall.shape?_of_passed {call list value : NodeId} {position : Nat} (called : tree.IsCall call)
    (held : tree.child? call .arguments = some list)
    (passed : tree.positionalValue? call position = some value) :
    tree.shape? list = some (.argumentList (tree.arguments call)) := by
  obtain ⟨_, argument, same, listed, _⟩ := positionalValue?_eq_some passed
  rw [called.listSlot] at same
  cases held.symm.trans same
  obtain ⟨shape, found, kind⟩ := Option.map_eq_some_iff.mp
    (kind_of_argument (mem_childrenIn.mp (List.mem_of_getElem? listed)))
  cases shape with
  | argumentList arguments =>
      rw [found, called.arguments_eq, held]
      dsimp only
      rw [childrenIn, children_of_shape? found, Shape.children_storage? rfl, Shape.map_snd_tagged]
      rfl
  | _ => cases kind

end Tree

namespace WrapArguments

open Codemod.Tree (Relisted relisted_nil)

variable {config : WrapArguments} {before after tree : Tree} {keep : NodeId → Bool}
variable {call method top : NodeId}

theorem Object.relisted {values : List NodeId} {object : NodeId}
    (made : Object config before values object after)
    (parts : ∀ value ∈ values, Relisted before after keep [value] [value]) :
    Relisted before after keep values [object] := by
  obtain ⟨fresh, title, list, arguments, creates, titleFresh, named, listFresh, listed, carried⟩ := made
  have passes : Relisted before after keep values arguments := by
    refine .forall₂ (((List.forall₂_and_left values _).mpr ⟨parts, carried⟩).imp ?_)
    rintro value argument ⟨part, new, holds⟩
    apply Relisted.enter new
    rw [Tree.children_of_shape? holds]
    exact part
  apply Relisted.enter fresh
  rw [Tree.children_of_shape? creates]
  have spelling : Relisted before after keep [] [title] := by
    apply Relisted.enter titleFresh
    rw [Tree.children_of_shape? named]
    exact relisted_nil
  refine spelling.append (.enter listFresh ?_)
  rw [Tree.children_of_shape? listed]
  simpa [Shape.children, Shape.map_snd_tagged] using passes

/-- Beside the nodes that are made anew nodes hold what they held. -/
theorem Spares.children {id : NodeId} {others : List NodeId} (spares : Spares before call method after)
    (remade : before.Remade (method :: others) after) (inside : before.contains id)
    (apart : id ∉ others) : after.children id = before.children id := by
  by_cases same : id = method
  · have childless : ∀ {tree : Tree}, tree.kind? method = some .name → tree.children method = [] := by
      intro tree kind
      obtain ⟨shape, found, named⟩ := Option.map_eq_some_iff.mp kind
      rw [Tree.children_of_shape? found]
      cases shape <;> first | rfl | cases named
    subst same
    rw [childless spares.named, childless ((spares.kinds inside).trans spares.named)]
  · rw [Tree.children, remade.shapes inside (by simp [same, apart]), Tree.children]

/-- Items of an array of which some are wrapped. -/
theorem relisted_items {array : NodeId} {items news left : List NodeId} {legacy : Bool}
    (tidy : before.Tidy array) (read : before.shape? array = some (.array items legacy))
    (shaped : ∀ item ∈ left, item ∈ items
      ∧ ∃ key value, before.shape? item = some (.arrayItem key value false))
    (still : ∀ {id}, before.Below array id → id ≠ array → after.children id = before.children id)
    (rewrapped : List.Forall₂ (Rewrapped config before left after) items news) :
    Relisted before after (fun id => id ∉ left) items news := by
  have child : ∀ {item}, item ∈ items → (Slot.item, item) ∈ before.children array :=
    Tree.child_of_array read
  refine .forall₂ (((List.forall₂_and_left items _).mpr ⟨fun _ => id, rewrapped⟩).imp ?_)
  rintro item new ⟨member, turned⟩
  have held := child member
  have tidyItem := tidy.sub (.child .self held)
  have inside := tidy.contains_child .self held
  -- Below an item there is no other one, and nothing but the array has changed.
  have stays : ∀ {id}, before.Below item id → (id = item → item ∉ left) →
      id ∉ left ∧ after.children id = before.children id := by
    intro id below kept
    constructor
    · intro listed
      obtain rfl : item = id := tidy.sibling_eq .self held (child (shaped id listed).1) below
      exact kept rfl listed
    · refine still (.trans (.child .self held) below) fun same => ?_
      exact tidy.not_below_child .self held (same ▸ below)
  cases turned with
  | kept other =>
      apply tidyItem.relisted_still inside
      intro id below
      obtain ⟨kept, children⟩ := stays below fun _ => other
      exact ⟨decide_eq_true kept, children⟩
  | @wrapped value _ object listed holds fresh created made =>
      obtain ⟨_, key, _, spelled⟩ := shaped item listed
      obtain ⟨keyed, valued⟩ := Tree.child?_of_arrayItem spelled
      cases holds.symm.trans valued
      rw [keyed] at made
      have parts : (before.children item).map Prod.snd = key.toList ++ [value] := by
        rw [Tree.children_of_shape? spelled, Shape.children, List.map_append, Shape.map_snd_tagged]
        rfl
      apply Relisted.leave (decide_eq_false (not_not.mpr listed))
      rw [parts]
      apply Relisted.enter fresh
      rw [Tree.children_of_shape? created]
      refine made.relisted fun part among => ?_
      rw [← parts] at among
      obtain ⟨entry, stands, rfl⟩ := List.mem_map.mp among
      have deep : before.Below item entry.2 := .child .self stands
      apply (tidyItem.sub deep).relisted_still (tidyItem.contains_child .self stands)
      intro id below
      have apart : id ≠ item := by
        rintro rfl
        exact tidyItem.not_below_child .self stands below
      obtain ⟨kept, children⟩ := stays (deep.trans below) fun same => absurd same apart
      exact ⟨decide_eq_true kept, children⟩

/-- The first arguments of a call hold the values that are to be wrapped. -/
theorem plain_of_contents {values : List NodeId} (reads : config.contents tree call = .values values) :
    List.Forall₂ (fun argument value => tree.shape? argument = some (.argument none false value))
      ((tree.arguments call).take values.length) values := by
  obtain ⟨first, passed, _, _, rfl⟩ := contents_eq_values_iff.mp reads
  rw [Tree.positionalValue?_eq] at passed
  cases listed : tree.arguments call with
  | nil =>
      rw [listed] at passed
      cases passed
  | cons argument rest =>
      rw [listed] at passed
      have plain := Tree.plainValue?_eq_some.mp passed
      cases second : tree.positionalValue? call 1 with
      | none => exact .cons plain .nil
      | some value =>
          rw [Tree.positionalValue?_eq, listed] at second
          cases rest with
          | nil => cases second
          | cons other rest => exact .cons plain (.cons (Tree.plainValue?_eq_some.mp second) .nil)

def dropped (config : WrapArguments) (tree : Tree) (call : NodeId) : List NodeId :=
  match config.contents tree call with
  | .values values => (tree.arguments call).drop values.length
  | _ => []

/-- The nodes below a call that go: items that are wrapped, or the list of arguments with its arguments,
and all that is below those behind the values that are wrapped. -/
def replaced (config : WrapArguments) (tree : Tree) (call : NodeId) : List NodeId :=
  match config.contents tree call with
  | .nothing => []
  | .items left => left
  | .values _ => (tree.child? call .arguments).toList ++ tree.arguments call
      ++ (config.dropped tree call).flatMap tree.descendants

theorem mem_replaced_values {values : List NodeId} {list id : NodeId} (tidy : tree.Tidy call)
    (called : tree.IsCall call) (held : tree.child? call .arguments = some list)
    (reads : config.contents tree call = .values values) :
    id ∈ config.replaced tree call ↔ id = list ∨ id ∈ tree.arguments call
      ∨ ∃ argument ∈ (tree.arguments call).drop values.length, tree.Below argument id := by
  rw [replaced, dropped, reads]
  dsimp only
  rw [held, Option.toList_some, List.mem_append, List.mem_append, List.mem_singleton, or_assoc,
    List.mem_flatMap]
  refine or_congr_right (or_congr_right (exists_congr fun argument => and_congr_right fun member => ?_))
  have among := List.mem_of_mem_drop member
  rw [called.arguments_eq, held, Tree.mem_childrenIn] at among
  have below : tree.Below call list := .child .self (Tree.child_of_child? held)
  exact (tidy.sub (below.child among)).mem_descendants (tidy.contains_child below among)

/-- Where values are wrapped all that goes is below the list of arguments. -/
theorem below_of_replaced {values : List NodeId} {list id : NodeId} (tidy : tree.Tidy call)
    (called : tree.IsCall call) (held : tree.child? call .arguments = some list)
    (reads : config.contents tree call = .values values) (gone : id ∈ config.replaced tree call) :
    tree.Below list id := by
  have among : ∀ {entry}, entry ∈ tree.arguments call → tree.Below list entry := by
    intro entry passed
    rw [called.arguments_eq, held, Tree.mem_childrenIn] at passed
    exact .child .self passed
  rcases (mem_replaced_values tidy called held reads).mp gone with rfl | passed | ⟨entry, behind, below⟩
  · exact .self
  · exact among passed
  · exact (among (List.mem_of_mem_drop behind)).trans below

/-- The list of a call and its arguments go; what the first ones hold goes into the object, and the
others with all that is below them. -/
theorem relisted_list {old object : NodeId} {entries values : List NodeId} (tidy : before.Tidy old)
    (read : before.shape? old = some (.argumentList entries))
    (plain : List.Forall₂ (fun entry value => before.shape? entry = some (.argument none false value))
      (entries.take values.length) values)
    (gone : ∀ {id}, keep id = false ↔ id = old ∨ id ∈ entries
      ∨ ∃ entry ∈ entries.drop values.length, before.Below entry id)
    (still : ∀ {id}, before.Below old id → after.children id = before.children id)
    (made : Object config before values object after) :
    Relisted before after keep [old] [object] := by
  have slots : before.children old = Shape.tagged .argument entries := Tree.children_of_shape? read
  have child : ∀ {entry}, entry ∈ entries → (Slot.argument, entry) ∈ before.children old :=
    Tree.child_of_argumentList read
  have nodup : entries.Nodup := (tidy.keeps .self).nodup_tagged slots
  have parts : ∀ value ∈ values, Relisted before after keep [value] [value] := by
    intro value member
    obtain ⟨index, there⟩ := List.getElem?_of_mem member
    obtain ⟨entry, stands, shaped⟩ := plain.getElem?_right there
    have front := List.mem_of_getElem? stands
    have held := child (List.mem_of_mem_take front)
    have holds : (Slot.value, value) ∈ before.children entry := by
      rw [Tree.children_of_shape? shaped]
      exact List.mem_singleton.mpr rfl
    have tidyEntry := tidy.sub (.child .self held)
    apply (tidyEntry.sub (.child .self holds)).relisted_still (tidyEntry.contains_child .self holds)
    intro id below
    have deep : before.Below entry id := .trans (.child .self holds) below
    -- What goes is the list, an argument, or below another argument; none of it is below a value.
    refine ⟨?_, still (.trans (.child .self held) deep)⟩
    rw [← Bool.not_eq_false, gone]
    rintro (rfl | passed | ⟨other, behind, above⟩)
    · exact tidy.not_below_child .self held deep
    · obtain rfl : entry = id := tidy.sibling_eq .self held (child passed) deep
      exact tidyEntry.not_below_child .self holds below
    · refine tidy.disjoint .self held (child (List.mem_of_mem_drop behind)) ?_ deep above
      rintro rfl
      exact (List.disjoint_take_drop nodup (Nat.le_refl _)) front behind
  have front : Relisted before after keep (entries.take values.length) [object] := by
    refine .leave_each (((List.forall₂_and_left _ _).mpr ⟨fun _ => id, plain⟩).imp ?_)
      (made.relisted parts)
    rintro entry value ⟨among, shaped⟩
    refine ⟨gone.mpr (Or.inr (Or.inl (List.mem_of_mem_take among))), ?_⟩
    rw [Tree.children_of_shape? shaped]
    rfl
  have back : Relisted before after keep (entries.drop values.length) [] := by
    refine .cut_each fun entry behind => ?_
    have held := child (List.mem_of_mem_drop behind)
    exact .cut (tidy.sub (.child .self held)) (tidy.contains_child .self held)
      fun below => gone.mpr (Or.inr (Or.inr ⟨entry, behind, below⟩))
  apply Relisted.leave (gone.mpr (Or.inl rfl))
  have whole := front.append back
  rw [List.take_append_drop, List.append_nil] at whole
  rwa [slots, Shape.map_snd_tagged]

theorem relisted_values {values : List NodeId} (tidy : before.Tidy call)
    (spares : Spares before call method after) (remade : before.Remade [method, call] after)
    (collected : Collected config before call values after)
    (reads : config.contents before call = .values values) :
    Relisted before after (fun id => id ∉ config.replaced before call) [call] [call] := by
  obtain ⟨target, name, old, list, argument, object, nullsafe, found, stored, fresh, listed, carries,
    made⟩ := collected
  have called : before.IsCall call := by
    rw [Tree.IsCall, spares.called]
    rfl
  have slots := Tree.children_of_shape? found
  have held : before.child? call .arguments = some old := by
    rw [Tree.child?, Tree.childrenIn, slots]
    rfl
  obtain ⟨first, passed, _⟩ := contents_eq_values_iff.mp reads
  have read := called.shape?_of_passed held passed
  have child := Tree.child_of_child? held
  -- All that goes is below the list, and only the call holds something else.
  have outside : ∀ {id}, ¬ before.Below old id → id ∉ config.replaced before call :=
    fun apart gone => apart (below_of_replaced tidy called held reads gone)
  have still : ∀ {entry}, entry ∈ before.children call → ∀ {id}, before.Below entry.2 id →
      after.children id = before.children id := by
    intro entry stands id below
    apply spares.children remade
    · exact tidy.contains_below (Tree.contains_of_shape? found) (.trans (.child .self stands) below)
    · rw [List.mem_singleton]
      rintro rfl
      exact tidy.not_below_child .self stands below
  have beside : ∀ entry ∈ before.children call, entry.2 ≠ old →
      Relisted before after (fun id => id ∉ config.replaced before call) [entry.2] [entry.2] := by
    intro entry stands differs
    apply (tidy.sub (.child .self stands)).relisted_still (tidy.contains_child .self stands)
    intro id below
    exact ⟨decide_eq_true (outside (tidy.disjoint .self stands child differs below)), still stands below⟩
  have apart : target ≠ old ∧ name ≠ old := by
    have nodupSlots := (tidy.keeps .self).nodup
    rw [slots] at nodupSlots
    simp only [Shape.children, List.map_cons, List.map_nil, List.nodup_cons, List.mem_cons,
      List.not_mem_nil, or_false, not_or] at nodupSlots
    exact ⟨nodupSlots.1.2, nodupSlots.2.1⟩
  apply Relisted.stay (Tree.contains_of_shape? found)
  · exact decide_eq_true (outside (tidy.not_below_child .self child))
  rw [slots, Tree.children_of_shape? stored]
  refine (beside (.object, target) (by rw [slots]; simp [Shape.children]) apart.1).cons
    ((beside (.method, name) (by rw [slots]; simp [Shape.children]) apart.2).cons ?_)
  apply Relisted.enter fresh
  rw [Tree.children_of_shape? listed]
  apply Relisted.enter carries.1
  rw [Tree.children_of_shape? carries.2]
  refine relisted_list (tidy.sub (.child .self child)) read (plain_of_contents reads) ?_
    (still child) made
  intro id
  rw [decide_eq_false_iff_not, not_not, mem_replaced_values tidy called held reads]

/-- Of the nodes below the call those that are replaced go, and no others, and all others stay in
their order. -/
theorem Fills.relisted (tidy : before.Tidy call)
    (spares : Spares before call method after)
    (fills : Fills config before call method after (config.contents before call)) :
    Relisted before after (fun id => id ∉ config.replaced before call) [call] [call] := by
  have inside := Tree.contains_of_kind? spares.called
  generalize reads : config.contents before call = contents at fills
  cases fills with
  | nothing remade =>
      apply tidy.relisted_still inside
      intro id below
      refine ⟨by simp [replaced, reads], ?_⟩
      exact spares.children remade (tidy.contains_below inside below) List.not_mem_nil
  | @items array items news left legacy remade passed read stored rewrapped =>
      have same : config.replaced before call = left := by
        rw [replaced, reads]
      obtain ⟨_, others, _, also, found, rfl⟩ := contents_eq_items reads
      cases passed.symm.trans also
      cases read.symm.trans found
      have reached := Tree.below_of_positionalValue? passed
      have slots : before.children array = Shape.tagged .item items := Tree.children_of_shape? read
      have held : ∀ {item}, item ∈ items.filter (config.needsWrap before) →
          (Slot.item, item) ∈ before.children array :=
        fun member => Tree.child_of_array read (List.mem_of_mem_filter member)
      have tidyArray := tidy.sub reached
      -- Of the nodes below the call only the array holds something else.
      have still : ∀ {id}, before.Below call id → id ≠ array →
          after.children id = before.children id := fun below apart =>
        spares.children remade (tidy.contains_below inside below) (by simpa using apart)
      rw [same]
      apply tidy.relisted_around inside reached
      · apply Relisted.stay (Tree.contains_of_shape? read)
        · refine decide_eq_true fun member => ?_
          exact tidyArray.topless .self (held member) rfl
        · rw [slots, Shape.map_snd_tagged, Tree.children_of_shape? stored]
          refine Eq.subst (Shape.map_snd_tagged .item news).symm (relisted_items tidyArray read
            (fun item member => ?_) (fun below => still (reached.trans below)) rewrapped)
          obtain ⟨among, needs⟩ := List.mem_filter.mp member
          obtain ⟨key, value, shaped, _⟩ := needsWrap_iff.mp needs
          exact ⟨among, key, value, shaped⟩
      · intro id below outside
        refine ⟨decide_eq_true fun member => outside (.child .self (held member)), still below ?_⟩
        rintro rfl
        exact outside .self
  | values remade collected => exact relisted_values tidy spares remade collected reads

/-- What goes is held as a list of arguments, an argument or an item, or it is below an argument behind
the values that are wrapped. -/
theorem held_of_replaced {id : NodeId} (gone : id ∈ config.replaced tree call) :
    (∃ parent slot, tree.Below call parent ∧ (slot, id) ∈ tree.children parent
        ∧ (slot = .arguments ∨ slot = .argument ∨ slot = .item))
      ∨ id ∈ (config.dropped tree call).flatMap tree.descendants := by
  cases reads : config.contents tree call with
  | nothing => simp [replaced, reads] at gone
  | items left =>
      rw [replaced, reads] at gone
      obtain ⟨array, items, legacy, passed, read, rfl⟩ := contents_eq_items reads
      exact Or.inl ⟨array, .item, Tree.below_of_positionalValue? passed,
        Tree.child_of_array read (List.mem_of_mem_filter gone), Or.inr (Or.inr rfl)⟩
  | values values =>
      rw [replaced, reads] at gone
      rcases List.mem_append.mp gone with among | behind
      · rcases List.mem_append.mp among with list | argument
        · have child := Tree.child_of_child? (Option.mem_toList.mp list)
          exact Or.inl ⟨call, .arguments, .self, child, Or.inl rfl⟩
        · obtain ⟨list, held, same⟩ := Tree.list_of_argument argument
          rw [same, Tree.mem_childrenIn] at argument
          exact Or.inl ⟨list, .argument, .child .self (Tree.child_of_child? held), argument,
            Or.inr (Or.inl rfl)⟩
      · exact Or.inr behind

end WrapArguments

namespace Tree

variable {tree : Tree} {call : NodeId}

def entries (tree : Tree) (value : NodeId) : List NodeId :=
  match tree.shape? value with
  | some (.array items _) =>
      items.flatMap fun item => (tree.child? item .key).toList ++ (tree.child? item .value).toList
  | _ => []

/-- What a call passes: the values of its arguments, and the keys and values of the items of an array
that comes first. -/
def cargo (tree : Tree) (call : NodeId) : List NodeId :=
  (tree.arguments call).filterMap (fun argument => tree.child? argument .value)
    ++ ((tree.arguments call).head?.bind fun argument => tree.child? argument .value).toList.flatMap
      tree.entries

theorem below_of_argument {argument : NodeId} (member : argument ∈ tree.arguments call) :
    tree.Below call argument := by
  obtain ⟨list, held, same⟩ := list_of_argument member
  rw [same, mem_childrenIn] at member
  exact .child (.child .self (child_of_child? held)) member

theorem held_of_cargo {id : NodeId} (passed : id ∈ tree.cargo call) :
    ∃ parent slot, tree.Below call parent ∧ (slot, id) ∈ tree.children parent
      ∧ (slot = .key ∨ slot = .value) := by
  rcases List.mem_append.mp passed with value | entry
  · obtain ⟨argument, among, held⟩ := List.mem_filterMap.mp value
    exact ⟨argument, .value, below_of_argument among, child_of_child? held, Or.inr rfl⟩
  · obtain ⟨first, member, listed⟩ := List.mem_flatMap.mp entry
    obtain ⟨argument, head, holds⟩ := Option.bind_eq_some_iff.mp (Option.mem_toList.mp member)
    have below : tree.Below call first :=
      .child (below_of_argument (List.mem_of_mem_head? head)) (child_of_child? holds)
    unfold entries at listed
    split at listed
    · next items legacy read =>
        obtain ⟨item, among, parts⟩ := List.mem_flatMap.mp listed
        have child := child_of_array read among
        rcases List.mem_append.mp parts with key | value
        · exact ⟨item, .key, below.child child, child_of_child? (Option.mem_toList.mp key), Or.inl rfl⟩
        · exact ⟨item, .value, below.child child, child_of_child? (Option.mem_toList.mp value),
            Or.inr rfl⟩
    · cases listed

end Tree

namespace WrapArguments

variable {config : WrapArguments} {tree : Tree} {call : NodeId}

/-- Of what a call passes only that goes which is below the arguments behind the values that are
wrapped. -/
theorem cargo_replaced_iff {id : NodeId} (tidy : tree.Tidy call) (passed : id ∈ tree.cargo call) :
    id ∈ config.replaced tree call ↔ id ∈ (config.dropped tree call).flatMap tree.descendants := by
  constructor
  · intro gone
    rcases held_of_replaced gone with ⟨other, place, also, holds, goes⟩ | behind
    · -- What a call passes is held in other slots than what goes.
      obtain ⟨parent, slot, below, held, kept⟩ := Tree.held_of_cargo passed
      cases (tidy.holder_eq below also held holds rfl).2
      rcases kept with rfl | rfl <;> rcases goes with same | same | same <;> cases same
    · exact behind
  · intro behind
    rw [replaced]
    cases reads : config.contents tree call with
    | values => exact List.mem_append_right _ behind
    | _ => simp [dropped, reads] at behind

/-- Of one or two arguments the second one goes if its value cannot be taken and that of the first one
is wrapped. -/
theorem mem_dropped_iff {argument : NodeId} (few : (tree.arguments call).length ≤ 2) :
    argument ∈ config.dropped tree call ↔ (tree.arguments call)[1]? = some argument
      ∧ tree.plainValue? argument = none ∧ ∃ first, tree.positionalValue? call 0 = some first
        ∧ tree.kind? first ≠ some .array ∧ config.isWrapped tree first = false := by
  constructor
  · intro gone
    unfold dropped at gone
    split at gone
    · next values reads =>
        obtain ⟨first, passed, other, unwrapped, rfl⟩ := contents_eq_values_iff.mp reads
        obtain ⟨place, stands⟩ := List.getElem?_of_mem gone
        rw [List.getElem?_drop] at stands
        have short := (List.getElem?_eq_some_iff.mp stands).1
        cases second : tree.positionalValue? call 1 with
        | some value =>
            rw [second] at short
            simp only [Option.toList_some, List.length_cons, List.length_nil] at short
            omega
        | none =>
            rw [second] at short stands
            simp only [Option.toList_none, List.length_cons, List.length_nil] at short stands
            obtain rfl : place = 0 := by omega
            refine ⟨stands, ?_, first, passed, other, unwrapped⟩
            rwa [Tree.positionalValue?_eq, stands] at second
    · cases gone
  · rintro ⟨stands, hidden, first, passed, other, unwrapped⟩
    have second : tree.positionalValue? call 1 = none := by
      rw [Tree.positionalValue?_eq, stands]
      exact hidden
    rw [dropped, contents_eq_values_iff.mpr ⟨first, passed, other, unwrapped, rfl⟩, second]
    have behind : ((tree.arguments call).drop 1)[0]? = some argument := by
      rwa [List.getElem?_drop]
    exact List.mem_of_getElem? behind

/-- Applied to a call in a tree in which each node is held once, the rule leaves what the call passes
below it, in its order. Only what is below the arguments behind the values that are wrapped goes; of
one or two arguments that is a second one which is named or unpacked, if the first one is wrapped. -/
theorem apply_carries (config : WrapArguments) (held : tree.HeldOnce) (reached : tree.Reaches call)
    (kind : tree.kind? call = some .methodCall) (applies : (config.plan tree call).isSome) :
    ∃ after, (config.apply call).run tree = (.ok .unchanged, after)
      ∧ (after.descendants call).filter (fun id => id ∈ tree.cargo call)
        = (tree.descendants call).filter (fun id => id ∈ tree.cargo call
          ∧ id ∉ (config.dropped tree call).flatMap tree.descendants)
      ∧ ((tree.arguments call).length ≤ 2 → ∀ argument, argument ∈ config.dropped tree call
        ↔ (tree.arguments call)[1]? = some argument ∧ tree.plainValue? argument = none
          ∧ ∃ first, tree.positionalValue? call 0 = some first ∧ tree.kind? first ≠ some .array
            ∧ config.isWrapped tree first = false) := by
  have tidy : tree.Tidy call := (Tree.heldOnce_iff_tidy.mp held).sub reached
  have inside := Tree.contains_of_kind? kind
  obtain ⟨plan, planned⟩ := Option.isSome_iff_exists.mp applies
  obtain ⟨after, title, method, ran, reworked, _, holds, spelled, _, fills⟩ :=
    run_apply config tidy kind planned
  obtain ⟨_, _, _, _, _, contents, _⟩ := plan_eq_some_iff.mp planned
  rw [contents] at fills
  have relisted := (fills.relisted tidy (fills.spares reworked kind holds spelled)).descendants tidy
    inside reworked.tidy (Tree.grown reworked.size inside)
  refine ⟨after, ran, ?_, fun few argument => mem_dropped_iff few⟩
  have contained : ∀ id ∈ tree.cargo call, tree.contains id := by
    intro id passed
    obtain ⟨parent, slot, below, child, _⟩ := Tree.held_of_cargo passed
    exact tidy.contains_child below child
  -- Nodes that were not there are not passed, so the listings are compared on what was there.
  calc (after.descendants call).filter (fun id => id ∈ tree.cargo call)
      = ((after.descendants call).filter tree.contains).filter (fun id => id ∈ tree.cargo call) := by
        rw [List.filter_filter]
        refine List.filter_congr fun id _ => ?_
        by_cases passed : id ∈ tree.cargo call <;> simp [passed, contained id]
    _ = ((tree.descendants call).filter (fun id => id ∉ config.replaced tree call)).filter
          (fun id => id ∈ tree.cargo call) := by rw [relisted]
    _ = _ := by
        rw [List.filter_filter]
        refine List.filter_congr fun id _ => ?_
        by_cases passed : id ∈ tree.cargo call
        · simp only [passed, cargo_replaced_iff tidy passed, decide_true, Bool.true_and, true_and]
        · simp [passed]

def keyed : WrapArguments :=
  ⟨[("setTo", "")], "Address"⟩

-- The statement `$m->setTo(['a' => 'b', ...$c], 'd');`.
def keyedTree : Tree :=
  Tree.ofProgram "<?php $m->setTo(['a' => 'b', ...$c], 'd');"
    ((Php.program "<?php $m->setTo(['a' => 'b', ...$c], 'd');").toOption.getD [])

/-- The key and the value go into a new object. The array, what is unpacked in it, and the second
argument stay where they are. -/
theorem apply_carries_keyed : keyedTree.HeldOnce ∧ keyedTree.Reaches ⟨14⟩
    ∧ keyed.contents keyedTree ⟨14⟩ = .items [⟨6⟩]
    ∧ ∃ after, (keyed.apply ⟨14⟩).run keyedTree = (.ok .unchanged, after)
      ∧ (after.descendants ⟨14⟩).filter (fun id => id ∈ keyedTree.cargo ⟨14⟩)
        = [⟨9⟩, ⟨4⟩, ⟨5⟩, ⟨7⟩, ⟨11⟩] := by
  have held : keyedTree.HeldOnce := Tree.heldOnce_iff_tidy.mpr Tree.ofProgram_tidy
  have facts : keyedTree.kind? ⟨14⟩ = some .methodCall
      ∧ keyed.contents keyedTree ⟨14⟩ = .items [⟨6⟩] ∧ (keyed.plan keyedTree ⟨14⟩).isSome
      ∧ (keyedTree.descendants ⟨14⟩).filter (fun id => id ∈ keyedTree.cargo ⟨14⟩
          ∧ id ∉ (keyed.dropped keyedTree ⟨14⟩).flatMap keyedTree.descendants)
        = [⟨9⟩, ⟨4⟩, ⟨5⟩, ⟨7⟩, ⟨11⟩] := by
    decide +kernel
  obtain ⟨kind, contents, applies, before⟩ := facts
  have reached : keyedTree.Reaches ⟨14⟩ := Tree.ofProgram_reaches kind nofun
  obtain ⟨after, ran, carried, _⟩ := apply_carries keyed held reached kind applies
  exact ⟨held, reached, contents, after, ran, carried.trans before⟩

def named : WrapArguments :=
  ⟨[("setFrom", "from")], "Address"⟩

-- The statement `$m->setFrom('a', name: 'b');`.
def namedTree : Tree :=
  Tree.ofProgram "<?php $m->setFrom('a', name: 'b');"
    ((Php.program "<?php $m->setFrom('a', name: 'b');").toOption.getD [])

/-- A named argument beside one that is wrapped is lost with its value. -/
theorem apply_loses_named : namedTree.HeldOnce ∧ namedTree.Reaches ⟨9⟩
    ∧ namedTree.kind? ⟨9⟩ = some .methodCall ∧ (named.plan namedTree ⟨9⟩).isSome
    ∧ (namedTree.arguments ⟨9⟩).map (fun argument => namedTree.child? argument .value)
      = [some ⟨4⟩, some ⟨6⟩]
    ∧ namedTree.Below ⟨9⟩ ⟨6⟩ ∧ ((named.apply ⟨9⟩).run namedTree).1 = .ok .unchanged
    ∧ ¬ ((named.apply ⟨9⟩).run namedTree).2.Below ⟨9⟩ ⟨6⟩ := by
  have held : namedTree.HeldOnce := Tree.heldOnce_iff_tidy.mpr Tree.ofProgram_tidy
  have facts : namedTree.kind? ⟨9⟩ = some .methodCall ∧ (named.plan namedTree ⟨9⟩).isSome
      ∧ (namedTree.arguments ⟨9⟩).map (fun argument => namedTree.child? argument .value)
        = [some ⟨4⟩, some ⟨6⟩]
      ∧ (⟨6⟩ : NodeId) ∈ namedTree.descendants ⟨9⟩
      ∧ (⟨6⟩ : NodeId) ∉ ((named.apply ⟨9⟩).run namedTree).2.descendants ⟨9⟩ := by
    decide +kernel
  obtain ⟨kind, applies, passes, among, gone⟩ := facts
  have reached : namedTree.Reaches ⟨9⟩ := Tree.ofProgram_reaches kind nofun
  have tidy : namedTree.Tidy ⟨9⟩ := Tree.ofProgram_tidy.sub reached
  obtain ⟨plan, planned⟩ := Option.isSome_iff_exists.mp applies
  obtain ⟨after, _, _, ran, reworked, _⟩ := run_apply named tidy kind planned
  have present := Tree.grown reworked.size (Tree.contains_of_kind? kind)
  rw [ran] at gone ⊢
  exact ⟨held, reached, kind, applies, passes, Tree.below_of_within among, rfl,
    fun inner => gone ((reworked.tidy.mem_descendants present).mpr inner)⟩

end WrapArguments

end Codemod
