import Codemod.Proofs.Catalog.Chains
import Codemod.Proofs.Catalog.Rebuild

/-!
The rule that flattens chains, applied to a call. It always gives the call a new list of arguments, with
what it has taken in them, and changes the shape of no other node but the name of the call.
-/

theorem List.Forall₂.getElem?_right {α β : Type} {R : α → β → Prop} {first : List α}
    {second : List β} (related : List.Forall₂ R first second) {index : Nat} {value : β}
    (found : second[index]? = some value) : ∃ other, first[index]? = some other ∧ R other value := by
  induction related generalizing index with
  | nil => cases found
  | cons head _ ih =>
      cases index with
      | zero =>
          cases found
          exact ⟨_, rfl, head⟩
      | succ index => exact ih found

theorem List.Forall₂.getElem?_left {α β : Type} {R : α → β → Prop} {first : List α}
    {second : List β} (related : List.Forall₂ R first second) {index : Nat} {value : α}
    (found : first[index]? = some value) : ∃ other, second[index]? = some other ∧ R value other :=
  related.flip.getElem?_right found

namespace Codemod

open Step

namespace Tree

/-- The arena has grown, and what was in it has the shape it had. -/
structure Extended (before after : Tree) : Prop where
  root : after.root = before.root
  size : before.size ≤ after.size
  shapes : ∀ {id}, before.contains id → after.shape? id = before.shape? id

variable {before middle after tree : Tree}

theorem Extended.refl (tree : Tree) : tree.Extended tree :=
  ⟨rfl, Nat.le_refl _, fun _ => rfl⟩

theorem Extended.contains {id : NodeId} (extended : before.Extended after)
    (inside : before.contains id) : after.contains id :=
  grown extended.size inside

theorem Extended.trans (first : before.Extended middle) (second : middle.Extended after) :
    before.Extended after where
  root := second.root.trans first.root
  size := Nat.le_trans first.size second.size
  shapes inside := (second.shapes (first.contains inside)).trans (first.shapes inside)

theorem Extended.shape? {id : NodeId} {shape : Shape} (extended : before.Extended after)
    (found : before.shape? id = some shape) : after.shape? id = some shape :=
  (extended.shapes (contains_of_shape? found)).trans found

theorem extended_added (tree : Tree) (shape : Shape) : tree.Extended (tree.added shape) where
  root := tree.root_added shape
  size := by
    rw [size_added]
    exact Nat.le_succ _
  shapes {id} inside := by
    rw [shape?_added, if_neg (ne_next_of_contains inside)]

/-- A new node, as seen from a tree that has grown since. -/
theorem run_alloc_extended {shape : Shape} (base : before.Extended tree)
    (inside : ∀ child ∈ shape.children, tree.contains child.2) :
    ∃ id after, (Edit.alloc shape).run tree = (.ok id, after) ∧ tree.Extended after
      ∧ ¬ before.contains id ∧ after.shape? id = some shape := by
  refine ⟨_, _, Edit.run_alloc_inside inside, extended_added tree shape, ?_, ?_⟩
  · exact fun early => tree.not_contains_next (base.contains early)
  · rw [shape?_added, if_pos rfl]

/-- Where each step adds nodes and what is told of its answer stays true, a list of steps does so. -/
theorem run_mapM_extended {α : Type} {step : α → Edit NodeId} (told : α → NodeId → Tree → Prop)
    (stays : ∀ {value id middle after}, told value id middle → middle.Extended after →
      told value id after)
    {values : List α} (each : ∀ value ∈ values, ∀ {middle}, before.Extended middle →
      ∃ id after, (step value).run middle = (.ok id, after) ∧ middle.Extended after
        ∧ told value id after)
    (base : before.Extended tree) :
    ∃ ids after, (values.mapM step).run tree = (.ok ids, after) ∧ tree.Extended after
      ∧ List.Forall₂ (fun value id => told value id after) values ids := by
  induction values generalizing tree with
  | nil => exact ⟨[], tree, rfl, .refl tree, .nil⟩
  | cons value rest ih =>
      obtain ⟨id, middle, ran, extended, first⟩ := each value List.mem_cons_self base
      obtain ⟨ids, after, ranRest, further, others⟩ :=
        ih (fun other member => each other (List.mem_cons_of_mem _ member)) (base.trans extended)
      refine ⟨id :: ids, after, ?_, extended.trans further, .cons (stays first further) others⟩
      rw [List.mapM_cons, run_bind_ok ran, run_bind_ok ranRest]
      rfl

end Tree

theorem RuleStep.run_mapM {α β : Type} {edit : α → Edit β} {values : List α} {results : List β}
    {tree after : Tree} (ran : (values.mapM edit).run tree = (.ok results, after)) :
    (values.mapM fun value => (edit value : RuleStep β)).run tree = (.ok results, after) := by
  induction values generalizing tree results with
  | nil =>
      cases ran
      rfl
  | cons value rest ih =>
      rw [List.mapM_cons] at ran
      obtain ⟨first, middle, starts, goes⟩ := run_bind_eq_ok.mp ran
      obtain ⟨others, last, ranRest, ends⟩ := run_bind_eq_ok.mp goes
      cases ends
      rw [List.mapM_cons, run_bind_ok (RuleStep.run_lift starts), run_bind_ok (ih ranRest)]
      rfl

namespace ExtractChainArguments

def Stands (before : Tree) : Option NodeId → NodeId → Tree → Prop
  | some value, id, _ => id = value
  | none, id, after => ¬ before.contains id ∧ after.shape? id = some (.raw "null")

def Carries (before : Tree) (value argument : NodeId) (after : Tree) : Prop :=
  ¬ before.contains argument ∧ after.shape? argument = some (.argument none false value)

/-- The call has a new list of arguments for the values. No other node that was there holds anything
else than before. -/
structure Repassed (before : Tree) (call : NodeId) (values : List (Option NodeId)) (after : Tree) :
    Prop where
  root : after.root = before.root
  size : before.size ≤ after.size
  others : ∀ {id}, before.contains id → id ≠ call → after.children id = before.children id
  kind : after.kind? call = before.kind? call
  listed : ∃ list arguments filled, after.child? call .arguments = some list
    ∧ ¬ before.contains list ∧ after.shape? list = some (.argumentList arguments)
    ∧ List.Forall₂ (fun value argument => Carries before value argument after) filled arguments
    ∧ List.Forall₂ (fun value id => Stands before value id after) values filled

section

variable {tree before middle after : Tree} {values : List (Option NodeId)}

theorem Stands.later {value : Option NodeId} {id : NodeId} (stands : Stands before value id middle)
    (keeps : ∀ {id shape}, ¬ before.contains id → middle.shape? id = some shape →
      after.shape? id = some shape) : Stands before value id after := by
  cases value with
  | none => exact ⟨stands.1, keeps stands.1 stands.2⟩
  | some value => exact stands

theorem Carries.later {value argument : NodeId} (carries : Carries before value argument middle)
    (keeps : ∀ {id shape}, ¬ before.contains id → middle.shape? id = some shape →
      after.shape? id = some shape) : Carries before value argument after :=
  ⟨carries.1, keeps carries.1 carries.2⟩

theorem Stands.contains {value : Option NodeId} {id : NodeId} (stands : Stands before value id after)
    (inside : ∀ given ∈ value, after.contains given) : after.contains id := by
  cases value with
  | none => exact Tree.contains_of_shape? stands.2
  | some value => exact stands ▸ inside value rfl

theorem run_fills (values : List (Option NodeId)) (tree : Tree) :
    ∃ filled after, (values.mapM fill).run tree = (.ok filled, after) ∧ tree.Extended after
      ∧ List.Forall₂ (fun value id => Stands tree value id after) values filled := by
  apply Tree.run_mapM_extended (Stands tree) (fun stands grows => stands.later fun _ => grows.shape?) _
    (.refl tree)
  intro value member middle extended
  cases value with
  | none => exact Tree.run_alloc_extended extended nofun
  | some value => exact ⟨value, middle, rfl, .refl middle, rfl⟩

theorem run_arguments {values : List NodeId} (base : before.Extended tree)
    (inside : ∀ value ∈ values, tree.contains value) :
    ∃ list after arguments, (Edit.argumentsOf values).run tree = (.ok list, after)
      ∧ tree.Extended after ∧ ¬ before.contains list
      ∧ after.shape? list = some (.argumentList arguments)
      ∧ List.Forall₂ (fun value argument => Carries before value argument after) values
        arguments := by
  have carries : ∀ value ∈ values, ∀ {middle : Tree}, tree.Extended middle →
      ∃ id after, (Edit.argument value).run middle = (.ok id, after) ∧ middle.Extended after
        ∧ Carries before value id after := by
    intro value member middle extended
    apply Tree.run_alloc_extended (base.trans extended)
    intro child held
    cases List.mem_singleton.mp held
    exact extended.contains (inside value member)
  obtain ⟨arguments, middle, ran, extended, carried⟩ :=
    Tree.run_mapM_extended (Carries before) (fun carries grows => carries.later fun _ => grows.shape?)
      carries (.refl tree)
  have present : ∀ child ∈ (Shape.argumentList arguments).children, middle.contains child.2 := by
    rintro ⟨slot, argument⟩ held
    obtain ⟨index, listed⟩ := List.getElem?_of_mem (Shape.mem_tagged.mp held).2
    obtain ⟨value, _, carries⟩ := carried.getElem?_right listed
    exact Tree.contains_of_shape? carries.2
  obtain ⟨list, after, built, further, fresh, shaped⟩ :=
    Tree.run_alloc_extended (base.trans extended) present
  refine ⟨list, after, arguments, ?_, extended.trans further, fresh, shaped, ?_⟩
  · rw [Edit.argumentsOf, run_bind_ok ran]
    exact built
  · exact carried.imp fun _ _ carries => carries.later fun _ => further.shape?

/-- A call of a method is given another list of arguments, and keeps its name. -/
theorem run_relist {call old list : NodeId}
    (kind : tree.kind? call = some .methodCall ∨ tree.kind? call = some .staticCall)
    (held : tree.child? call .arguments = some old) (differ : old ≠ list)
    (leaving : tree.contains old) (entering : tree.contains list) :
    ∃ after, (Edit.replaceAt (some ⟨call, .arguments⟩) old list).run tree = (.ok (), after)
      ∧ tree.Framed after ∧ (∀ {id}, id ≠ call → after.shape? id = tree.shape? id)
      ∧ after.kind? call = tree.kind? call ∧ after.child? call .arguments = some list
      ∧ after.child? call .method = tree.child? call .method := by
  obtain ⟨shape, found, member⟩ := Tree.shape?_of_child (Tree.child_of_child? held)
  obtain ⟨storage, holds, among⟩ := Shape.storage?_of_child member
  obtain ⟨filled, replaced⟩ := Storage.replace?_of_mem among list
  have seats : ∀ slot, ((shape.store .arguments filled).children.filter fun child => child.1 = slot)
      = if slot = .arguments then [(.arguments, list)]
        else shape.children.filter fun child => child.1 = slot := by
    rw [Tree.kind?_of_shape? found] at kind
    cases shape with
    | methodCall | staticCall =>
        cases holds
        cases List.mem_singleton.mp among
        obtain rfl : filled = .one list := by simpa [Storage.replace?] using replaced.symm
        intro slot
        cases slot <;> rfl
    | _ => simp [Shape.kind] at kind
  have reads :
      ((tree.refill ⟨call, .arguments⟩ (shape.store .arguments filled) [old] [list]).bump).shape? call
        = some (shape.store .arguments filled) := by
    rw [Tree.shape?_bump, Tree.shape?_refill, if_pos rfl, found]
    rfl
  refine ⟨_, Edit.run_replaceAt found holds differ replaced leaving entering, ?_, ?_, ?_, ?_, ?_⟩
  · exact Tree.framed_ordered.trans (tree.framed_refill ..) (Tree.framed_bump _)
  · intro id other
    rw [Tree.shape?_bump, Tree.shape?_refill, if_neg other]
  · rw [Tree.kind?_of_shape? reads, Shape.kind_store, Tree.kind?_of_shape? found]
  · rw [Tree.child?, Tree.childrenIn, Tree.children_of_shape? reads, seats]
    rfl
  · rw [Tree.child?, Tree.childrenIn, Tree.children_of_shape? reads, seats, Tree.child?,
      Tree.childrenIn, Tree.children_of_shape? found]
    rfl

def retitle (config : ExtractChainArguments) (call : NodeId) : Edit Unit :=
  match config.rename with
  | some title => Edit.renameCall call title
  | none => pure ()

variable {config : ExtractChainArguments} {call : NodeId}

/-- The name of a call may be spelled anew; nothing is held otherwise than before. -/
theorem run_retitle (config : ExtractChainArguments)
    (kind : tree.kind? call = some .methodCall ∨ tree.kind? call = some .staticCall)
    {callee : NodeId} (held : tree.child? call .method = some callee) {spelled : String}
    (shaped : tree.shape? callee = some (.name spelled)) :
    ∃ after, (config.retitle call).run tree = (.ok (), after) ∧ tree.Reworked callee after callee
      ∧ (∀ {id}, tree.contains id → after.children id = tree.children id)
      ∧ ∀ {id}, tree.contains id → id ≠ callee → after.shape? id = tree.shape? id := by
  have childless : tree.children callee = [] := Tree.children_of_shape? shaped
  unfold retitle
  cases config.rename with
  | none => exact ⟨tree, rfl, (Tree.tidy_leaf childless).reworked, fun _ => rfl, fun _ _ => rfl⟩
  | some title =>
      obtain ⟨after, sets, reworked⟩ := Tree.run_setName shaped rfl title
      have same : ∀ {id}, tree.contains id → id ≠ callee → after.shape? id = tree.shape? id := by
        intro id inside other
        apply Tree.shape?_of_node_eq
        exact reworked.frame inside fun below => other (Tree.below_leaf childless below)
      refine ⟨after, ?_, reworked, ?_, same⟩
      · have method : tree.kind? call ≠ some .functionCall := by
          rcases kind with kind | kind <;> rw [kind] <;> decide
        dsimp only
        rw [Edit.renameCall, run_bind_ok (Step.run_get tree)]
        dsimp only
        rw [if_neg method, held]
        exact sets
      · intro id inside
        by_cases here : id = callee
        · subst here
          have named := reworked.kinds inside
          rw [Tree.kind?_of_shape? shaped] at named
          obtain ⟨shape, found, kind⟩ := Option.map_eq_some_iff.mp named
          rw [childless, Tree.children_of_shape? found]
          cases shape <;> first | rfl | cases kind
        · rw [Tree.children, same inside here, Tree.children]

/-- The steps of the rule in a row. -/
theorem run_flatten_of {filled : List NodeId} {first second third : Tree} {old new : NodeId}
    (fills : ((values.rdropWhile Option.isNone).mapM fill).run tree = (.ok filled, first))
    (held : first.child? call .arguments = some old)
    (lists : (Edit.argumentsOf filled).run first = (.ok new, second))
    (replaces : (Edit.replaceAt (some ⟨call, .arguments⟩) old new).run second = (.ok (), third))
    (retitles : (config.retitle call).run third = (.ok (), after)) :
    (config.flatten call values).run tree = (.ok (), after) := by
  rw [List.rdropWhile] at fills
  unfold flatten
  dsimp only
  rw [run_bind_ok (RuleStep.run_mapM fills), run_bind_ok (RuleStep.run_requireChild held _),
    run_bind_ok (RuleStep.run_lift lists), run_bind_ok (RuleStep.run_lift replaces)]
  unfold retitle at retitles
  cases renamed : config.rename with
  | none =>
      rw [renamed] at retitles
      cases retitles
      rfl
  | some title =>
      rw [renamed] at retitles
      exact RuleStep.run_lift retitles

theorem child?_of_children {id : NodeId} (same : after.children id = before.children id)
    (slot : Slot) : after.child? id slot = before.child? id slot := by
  rw [Tree.child?, Tree.childrenIn, same]
  rfl

/-- The rule always has its way with a call of the method. -/
theorem run_flatten (accepted : (CallTarget.method config.method).accepts tree call)
    (tidy : tree.Tidy call) {old : NodeId} (held : tree.child? call .arguments = some old)
    (values : List (Option NodeId))
    (inside : ∀ value, some value ∈ values.rdropWhile Option.isNone → tree.contains value) :
    ∃ after, (config.flatten call values).run tree = (.ok (), after)
      ∧ Repassed tree call (values.rdropWhile Option.isNone) after := by
  obtain ⟨kind, callee, spelled, method, named⟩ := Tree.name_of_accepts accepted
  have contained := Tree.contains_of_child (Tree.child_of_child? held)
  have leaving := tidy.contains_child .self (Tree.child_of_child? held)
  have callees := tidy.contains_child .self (Tree.child_of_child? method)
  have apart : callee ≠ call := tidy.topless .self (Tree.child_of_child? method)
  obtain ⟨filled, first, fills, grows, stands⟩ :=
    run_fills (values.rdropWhile Option.isNone) tree
  have present : ∀ id ∈ filled, first.contains id := by
    intro id member
    obtain ⟨index, listed⟩ := List.getElem?_of_mem member
    obtain ⟨value, given, stands⟩ := stands.getElem?_right listed
    apply stands.contains
    rintro value rfl
    exact grows.contains (inside value (List.mem_of_getElem? given))
  obtain ⟨list, second, arguments, lists, further, fresh, shaped, carried⟩ :=
    run_arguments grows present
  have extended := grows.trans further
  have slots : ∀ {middle : Tree}, tree.Extended middle → middle.children call = tree.children call :=
    fun grown => by rw [Tree.children, grown.shapes contained, Tree.children]
  have kinds : second.kind? call = tree.kind? call := by
    rw [Tree.kind?, extended.shapes contained, Tree.kind?]
  have differ : old ≠ list := by
    rintro rfl
    exact fresh leaving
  have other : ∀ {id}, ¬ tree.contains id → id ≠ call ∧ id ≠ callee := by
    intro id absent
    exact ⟨fun same => absent (same ▸ contained), fun same => absent (same ▸ callees)⟩
  obtain ⟨third, replaces, framed, same, kept, listed, methods⟩ := run_relist (kinds ▸ kind)
    ((child?_of_children (slots extended) _).trans held) differ (extended.contains leaving)
    (Tree.contains_of_shape? shaped)
  have spells : third.shape? callee = some (.name spelled) :=
    (same apart).trans (extended.shape? named)
  have calls : third.child? call .method = some callee :=
    methods.trans ((child?_of_children (slots extended) _).trans method)
  obtain ⟨after, retitles, reworked, holds, shapes⟩ :=
    run_retitle config ((kept.trans kinds) ▸ kind) calls spells
  refine ⟨after, run_flatten_of fills ((child?_of_children (slots grows) _).trans held) lists
    replaces retitles, ?_⟩
  have within : ∀ {id}, second.contains id → third.contains id := fun early => by
    rwa [framed.contains]
  -- Nodes that are new are neither the call nor its name.
  have keeps : ∀ {id shape}, ¬ tree.contains id → second.shape? id = some shape →
      after.shape? id = some shape := by
    intro id shape absent found
    rw [shapes (within (Tree.contains_of_shape? found)) (other absent).2, same (other absent).1,
      found]
  constructor
  case root => rw [reworked.root, framed.root, extended.root]
  case size =>
    exact Nat.le_trans extended.size (Nat.le_trans (Nat.le_of_eq framed.size.symm) reworked.size)
  case others =>
    intro id early apart
    rw [holds (within (extended.contains early)), Tree.children, same apart,
      extended.shapes early, Tree.children]
  case kind => rw [reworked.kinds (within (extended.contains contained)), kept, kinds]
  case listed =>
    refine ⟨list, arguments, filled, ?_, fresh, keeps fresh shaped, ?_, ?_⟩
    · rw [child?_of_children (holds (within (extended.contains contained))), listed]
    · exact carried.imp fun _ _ carries => carries.later keeps
    · exact stands.imp fun _ _ stands => stands.later fun absent found =>
        keeps absent (further.shape? found)

-- Values that are apart are heads of subtrees; gaps add heads to them.

theorem gathered_fills {old : NodeId} {filled : List NodeId} (inside : before.contains old)
    (ran : (values.mapM fill).run middle = (.ok filled, after)) {rest : List NodeId}
    (gathered : before.Gathered old middle (values.reduceOption ++ rest)) :
    before.Gathered old after (filled ++ rest) := by
  induction values generalizing middle filled rest with
  | nil =>
      cases ran
      exact gathered
  | cons value others ih =>
      rw [List.mapM_cons] at ran
      obtain ⟨first, next, fills, goes⟩ := run_bind_eq_ok.mp ran
      obtain ⟨later, last, fillsRest, ends⟩ := run_bind_eq_ok.mp goes
      cases ends
      have grows : before.Gathered old next (first :: (others.reduceOption ++ rest)) := by
        cases value with
        | some value =>
            cases fills
            rwa [List.reduceOption_cons_of_some] at gathered
        | none =>
            rw [List.reduceOption_cons_of_none] at gathered
            obtain ⟨new, built, allocates, heads, _⟩ :=
              Edit.builds_alloc (.raw "null") rfl nofun nofun _ _ _ _ inside gathered
            rw [fill, Edit.raw, allocates] at fills
            cases fills
            exact heads
      have moved := ih fillsRest (grows.perm List.perm_middle.symm)
      exact moved.perm List.perm_middle

/-- Where the values have nothing in common, all nodes are held once again below the call. -/
theorem run_flatten_apart (accepted : (CallTarget.method config.method).accepts tree call)
    (tidy : tree.Tidy call) {old : NodeId} (held : tree.child? call .arguments = some old)
    (gathered : tree.Gathered old tree (values.rdropWhile Option.isNone).reduceOption) :
    ∃ after, (config.flatten call values).run tree = (.ok (), after)
      ∧ tree.Reworked call after call := by
  obtain ⟨kind, callee, spelled, method, named⟩ := Tree.name_of_accepts accepted
  have child := Tree.child_of_child? held
  have inside : tree.contains old := tidy.contains_child .self child
  have contained := Tree.contains_of_child child
  have callees := tidy.contains_child .self (Tree.child_of_child? method)
  obtain ⟨filled, first, fills, grows, _⟩ := run_fills (values.rdropWhile Option.isNone) tree
  have heads : tree.Gathered old first (filled ++ []) := by
    apply gathered_fills inside fills
    rwa [List.append_nil]
  obtain ⟨list, second, lists, gatheredNew, built⟩ :=
    Edit.builds_argumentsOf filled _ _ _ [] inside heads
  have fresh : ¬ tree.contains list := fun early => built.fresh (grows.contains early)
  obtain ⟨third, replaces, swapped⟩ :=
    Tree.run_replaceAt_head ⟨call, .arguments⟩ gatheredNew tidy child fresh
  -- The name of the call is not below its list, so the last step finds it as it was.
  have outside : ¬ tree.Below old callee :=
    fun below => tidy.name_apart held method nofun below .self
  have still := gatheredNew.frame contained (tidy.not_below_child .self child)
  have differ : old ≠ list := fun same => fresh (same ▸ inside)
  obtain ⟨_, also, framed, _, kept, _, methods⟩ := run_relist
    ((Tree.kind?_of_node? still).symm ▸ kind) ((Tree.child?_of_node? still _).trans held) differ
    (Tree.grown gatheredNew.size inside) (gatheredNew.inside list List.mem_cons_self)
  cases replaces.symm.trans also
  have calls : third.child? call .method = some callee :=
    methods.trans ((Tree.child?_of_node? still _).trans method)
  have spells : third.shape? callee = some (.name spelled) := by
    have same := swapped.still callees outside (tidy.topless .self (Tree.child_of_child? method))
    exact (Tree.shape?_of_node_eq same).trans named
  have kinds : third.kind? call = tree.kind? call := kept.trans (Tree.kind?_of_node? still)
  obtain ⟨after, retitles, reworked, _⟩ := run_retitle config (kinds.symm ▸ kind) calls spells
  have lifted := reworked.lift swapped.reworked.tidy (.child .self (Tree.child_of_child? calls))
    (Tree.grown swapped.reworked.size contained)
  have slots : first.child? call .arguments = some old := by
    rw [child?_of_children _ _, held]
    rw [Tree.children, grows.shapes contained, Tree.children]
  exact ⟨after, run_flatten_of fills slots lists replaces retitles,
    swapped.reworked.trans contained lifted⟩

end

section

variable {config : ExtractChainArguments} {tree after : Tree} {call : NodeId}

theorem held_of_chain? {chain : NodeId} (found : config.chain? tree call = some chain) :
    ∃ old, tree.child? call .arguments = some old := by
  obtain ⟨accepted, passed, _⟩ := chain?_eq_some found
  obtain ⟨old, _, held, _⟩ := Tree.positionalValue?_eq_some passed
  rw [Tree.listSlot_of_accepts accepted] at held
  exact ⟨old, held⟩

/-- Applied to any call the rule answers. It leaves the tree as it is, or passes on what it found. -/
theorem run_apply_repassed (config : ExtractChainArguments) (tidy : tree.Tidy call)
    (inside : tree.contains call) :
    ∃ after, (config.apply call).run tree = (.ok .unchanged, after)
      ∧ (config.passing tree call = [] ∧ after = tree
        ∨ config.passing tree call ≠ [] ∧ Repassed tree call (config.passing tree call) after) := by
  rcases run_apply config tree call with ⟨empty, ran⟩ | ⟨chain, _, _, found, some, kept, ran⟩
  · exact ⟨tree, ran, Or.inl ⟨empty, rfl⟩⟩
  · obtain ⟨old, held⟩ := held_of_chain? found
    have present : ∀ value, .some value ∈ (config.values tree chain).rdropWhile Option.isNone →
        tree.contains value := by
      intro value member
      rw [← kept] at member
      exact (contains_taken tidy inside (List.reduceOption_mem_iff.mpr member)).2
    obtain ⟨after, flattens, repassed⟩ := run_flatten (chain?_eq_some found).1 tidy held _ present
    rw [run_bind_ok flattens] at ran
    rw [← kept] at repassed
    exact ⟨after, ran, Or.inr ⟨by rw [some]; exact List.cons_ne_nil _ _, repassed⟩⟩

/-- Where the values are apart, the call is reworked. -/
theorem run_apply_apart (tidy : tree.Tidy call) (inside : tree.contains call)
    (apart : config.Apart tree call) :
    ∃ after, (config.apply call).run tree = (.ok .unchanged, after)
      ∧ tree.Reworked call after call := by
  rcases run_apply config tree call with ⟨_, ran⟩ | ⟨chain, _, _, found, _, kept, ran⟩
  · exact ⟨tree, ran, tidy.reworked⟩
  · obtain ⟨old, held⟩ := held_of_chain? found
    have child := Tree.child_of_child? held
    have tidyOld : tree.Tidy old := tidy.sub (.child .self child)
    have below : ∀ value ∈ config.taken tree call, tree.Below old value ∧ value ≠ old := by
      intro value member
      obtain ⟨index, passed⟩ := taken_of_mem member
      obtain ⟨list, argument, first, also, among, holds, under⟩ := held_of_passing passed
      cases held.symm.trans also
      have reached : tree.Below old argument := .child .self among
      refine ⟨(reached.child holds).trans under, ?_⟩
      rintro rfl
      -- The list is above the first argument, so the value is not the list.
      exact tidyOld.not_below_child reached holds (under.trans reached)
    have gathered := tidyOld.gathered (nodup_taken tidy) below
      fun _ firstMember _ secondMember differ _ => apart.disjoint tidy inside firstMember secondMember
        differ
    rw [taken, kept] at gathered
    obtain ⟨after, flattens, reworked⟩ :=
      run_flatten_apart (chain?_eq_some found).1 tidy held gathered
    rw [run_bind_ok flattens] at ran
    exact ⟨after, ran, reworked⟩

/-- Above the call nothing has changed. -/
theorem Repassed.reaches {values : List (Option NodeId)} (repassed : Repassed tree call values after)
    (tidy : tree.Tidy tree.root) {id : NodeId} (reached : tree.Reaches id)
    (outer : id = call ∨ ¬ tree.Below call id) : after.Reaches id := by
  rw [Tree.Reaches, repassed.root]
  induction reached with
  | self => exact .self
  | @child parent id slot above held ih =>
      have outside : ¬ tree.Below call parent := by
        intro inner
        rcases outer with rfl | outside
        · exact tidy.acyclic (.child above held) inner held rfl
        · exact outside (.child inner held)
      have other : parent ≠ call := fun same => outside (same ▸ .self)
      rw [← repassed.others (Tree.contains_of_child held) other] at held
      exact .child (ih (Or.inr outside)) held

/-- Below nodes that do not hold the call nothing has changed either. -/
theorem Repassed.below {values : List (Option NodeId)} (repassed : Repassed tree call values after)
    {top id : NodeId} (apart : ¬ tree.Below top call) (below : tree.Below top id) :
    after.Below top id := by
  induction below with
  | self => exact .self
  | @child parent id slot above held ih =>
      have other : parent ≠ call := fun same => apart (same ▸ above)
      rw [← repassed.others (Tree.contains_of_child held) other] at held
      exact .child ih held

/-- Each value that is passed on is held by a new argument. -/
theorem Repassed.argument {values : List (Option NodeId)} (repassed : Repassed tree call values after)
    {value : NodeId} (member : some value ∈ values) :
    ∃ argument, after.Below call argument ∧ ¬ tree.contains argument
      ∧ (.value, value) ∈ after.children argument := by
  obtain ⟨list, arguments, filled, held, _, shaped, carried, stands⟩ := repassed.listed
  obtain ⟨index, given⟩ := List.getElem?_of_mem member
  obtain ⟨id, filling, rfl⟩ := stands.getElem?_left given
  obtain ⟨argument, listed, fresh, holds⟩ := carried.getElem?_left filling
  have among := Tree.child_of_argumentList shaped (List.mem_of_getElem? listed)
  refine ⟨argument, .child (.child .self (Tree.child_of_child? held)) among, fresh, ?_⟩
  rw [Tree.children_of_shape? holds]
  exact List.mem_cons_self

/-- A value below another one is held by its old argument and by its new one. -/
theorem Repassed.separate {values : List (Option NodeId)} (repassed : Repassed tree call values after)
    (tidy : tree.Tidy tree.root) (reached : tree.Reaches call) (held : after.HeldOnce)
    {first second : NodeId} (firstMember : some first ∈ values) (secondMember : some second ∈ values)
    (outside : ¬ tree.Below first call) (differ : first ≠ second) : ¬ tree.Below first second := by
  intro inner
  have tidyAfter := Tree.heldOnce_iff_tidy.mp held
  have calls : after.Reaches call := repassed.reaches tidy reached (Or.inl rfl)
  obtain ⟨argument, above, _, holds⟩ := repassed.argument firstMember
  obtain ⟨other, otherAbove, fresh, otherHolds⟩ := repassed.argument secondMember
  cases inner with
  | self => exact differ rfl
  | @child holder _ slot within holdsOld =>
      have remains : after.Reaches holder :=
        ((calls.trans above).child holds).trans (repassed.below outside within)
      have still : (slot, second) ∈ after.children holder := by
        rwa [repassed.others (Tree.contains_of_child holdsOld)]
        rintro rfl
        exact outside within
      obtain ⟨rfl, _⟩ := tidyAfter.holder_eq remains (calls.trans otherAbove) still otherHolds rfl
      exact fresh (Tree.contains_of_child holdsOld)

/-- After the rule was applied to a call that can be reached, all nodes are held once if and only if
the values it has passed on are apart. -/
theorem run_apply_heldOnce (config : ExtractChainArguments) (tidy : tree.Tidy tree.root)
    (inside : tree.contains tree.root) (reached : tree.Reaches call) :
    ∃ after, (config.apply call).run tree = (.ok .unchanged, after) ∧ after.contains after.root
      ∧ (config.Apart tree call → tree.Reworked tree.root after tree.root)
      ∧ (after.HeldOnce ↔ config.Apart tree call) := by
  have tidyCall := tidy.sub reached
  have contained := tidy.contains_below inside reached
  have apart_of : ∀ {after}, (config.apply call).run tree = (.ok .unchanged, after) →
      config.Apart tree call → tree.Reworked tree.root after tree.root := by
    intro after ran apart
    obtain ⟨_, also, reworked⟩ := run_apply_apart tidyCall contained apart
    cases ran.symm.trans also
    exact reworked.lift tidy reached inside
  obtain ⟨after, ran, outcome⟩ := run_apply_repassed config tidyCall contained
  refine ⟨after, ran, ?_, apart_of ran, ?_, ?_⟩
  · rcases outcome with ⟨_, rfl⟩ | ⟨_, repassed⟩
    · exact inside
    · rw [repassed.root]
      exact Tree.grown repassed.size inside
  · intro held
    rw [apart_iff tidyCall contained]
    intro first firstMember second secondMember differ
    have firstGiven := List.reduceOption_mem_iff.mp firstMember
    rcases outcome with ⟨empty, _⟩ | ⟨_, repassed⟩
    · rw [empty] at firstGiven
      cases firstGiven
    · obtain ⟨index, passed⟩ := taken_of_mem firstMember
      obtain ⟨list, argument, chain, holds, among, value, under⟩ := held_of_passing passed
      have outside : ¬ tree.Below first call := by
        intro inner
        have down : tree.Below call argument := .child (.child .self (Tree.child_of_child? holds)) among
        exact tidyCall.not_below_child down value ((under.trans inner).trans down)
      exact repassed.separate tidy reached held firstGiven
        (List.reduceOption_mem_iff.mp secondMember) outside differ
  · intro apart
    have reworked := apart_of ran apart
    exact Tree.heldOnce_iff_tidy.mpr (reworked.root.symm ▸ reworked.tidy)

end

end ExtractChainArguments

end Codemod
