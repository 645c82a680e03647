import Codemod.Proofs.Catalog.Safe

/-!
Rules that build: a constructor call becomes a builder call around its list of arguments, and
arguments are wrapped in new objects. What they take into new nodes is still held by the old ones
until these are replaced. Main statement: of the rules that can be configured, all but the one that
flattens chains are safe (`Catalog.safe_of_build`).
-/

namespace Codemod

open Step

namespace NewToBuilder

/-- The creation that is replaced is the node itself or what stands in its parentheses. -/
theorem target?_eq_some {config : NewToBuilder} {tree : Tree} {id creation : NodeId}
    (found : config.target? tree id = some creation) :
    (creation = id ∨ (Slot.expression, creation) ∈ tree.children id)
      ∧ tree.kind? creation = some .new
      ∧ ∃ className title, tree.child? creation .className = some className
        ∧ tree.shape? className = some (.name title) := by
  have spelled : ∀ {creation}, config.creates tree creation →
      ∃ className title, tree.child? creation .className = some className
        ∧ tree.shape? className = some (.name title) := by
    intro creation creates
    cases named : tree.instantiatedClass? creation with
    | none => simp [NewToBuilder.creates, named] at creates
    | some title =>
        obtain ⟨className, held, spells⟩ := Option.bind_eq_some_iff.mp named
        exact ⟨className, title, held, Tree.shape?_of_spelledName? spells⟩
  unfold target? at found
  split at found
  · next read =>
      split at found
      · next creates =>
          cases found
          exact ⟨Or.inl rfl, read, spelled creates⟩
      · cases found
  · next read =>
      obtain ⟨held, accepted⟩ := Option.filter_eq_some_iff.mp found
      simp only [Bool.and_eq_true, beq_iff_eq] at accepted
      exact ⟨Or.inr (Tree.child_of_child? held), accepted.1.1, spelled accepted.1.2⟩
  · cases found

/-- The list of arguments moves from the creation into a call on a new object. -/
theorem run_build {tree : Tree} {id creation list : NodeId} (config : NewToBuilder)
    (tidy : tree.Tidy id) (inside : tree.contains id) (below : tree.Below id creation)
    (held : (Slot.constructorArguments, list) ∈ tree.children creation) :
    ∃ object middle new after,
      (Edit.newInstance config.replacement none).run tree = (.ok object, middle)
      ∧ (Edit.methodCall object config.method list).run middle = (.ok new, after)
      ∧ tree.Reworked id after new := by
  have part : ∀ id' ∈ [list], tree.Below id id' ∧ id' ≠ id := by
    intro other member
    cases List.mem_singleton.mp member
    exact ⟨.child below held, tidy.topless below held⟩
  have start : tree.Gathered id tree ([] ++ [list]) := by
    refine tidy.gathered (by simp) part ?_
    intro first firstMember second secondMember differ
    cases List.mem_singleton.mp firstMember
    cases List.mem_singleton.mp secondMember
    exact absurd rfl differ
  obtain ⟨object, middle, creates, gathered, built⟩ :=
    Edit.builds_newInstance config.replacement none _ _ _ [list] inside start
  obtain ⟨new, after, calls, gatheredNew, builtNew⟩ :=
    Edit.builds_methodCall object config.method list _ _ _ [] inside gathered
  have contained := tidy.contains_child below held
  have points := (built.spares list contained nofun).trans (tidy.named below held)
  -- Taking the list from the creation counts.
  have counted := builtNew.moves list (by simp) _ points
    (Tree.grown built.size (Tree.contains_of_child held))
  refine ⟨object, middle, new, after, creates, calls, ?_⟩
  apply gatheredNew.reworked _ builtNew.loose (Nat.lt_of_le_of_lt built.counts counted)
  exact fun early => builtNew.fresh (Tree.grown built.size early)

theorem safe (config : NewToBuilder) : config.rule.Safe where
  inner := rfl
  accepts _ _ _ := ⟨_, rfl⟩
  applies := by
    intro tree id proper inside tidy offered context
    have unfolded : (config.rule.apply id context).run tree = (config.apply id).run tree := rfl
    rw [unfolded, apply, run_bind_ok (RuleStep.run_get tree)]
    cases found : config.target? tree id with
    | none => exact Tree.safely_unchanged tidy.reworked
    | some creation =>
        obtain ⟨stands, kind, className, title, held, shaped⟩ := target?_eq_some found
        have below : tree.Below id creation := by
          rcases stands with rfl | child
          · exact .self
          · exact .child .self child
        have tidyCreation := tidy.sub below
        have insideCreation := tidy.contains_below inside below
        have slots : tree.listSlot creation = .constructorArguments := by
          rw [Tree.listSlot, kind, if_pos rfl]
        dsimp only
        rw [run_bind_ok (RuleStep.run_requireChild held _)]
        split
        · next first extra list listed holds =>
            obtain ⟨middle, drops, reworked, still⟩ := Tree.run_dropArguments tidyCreation
              insideCreation (listed ▸ List.sublist_cons_self first extra)
            have same := (still held (by rw [slots]; decide)).1
            have lifted := reworked.lift tidy below inside
            -- The edit was made inside the creation; the expression around it still holds it.
            have belowMiddle : middle.Below id creation := by
              rcases stands with rfl | child
              · exact .self
              · have outside := reworked.frame inside (tidy.not_below_child .self child)
                apply Tree.Below.child .self
                rw [Tree.children, Tree.shape?_of_node_eq outside]
                exact child
            have child : (Slot.constructorArguments, list) ∈ middle.children creation :=
              Tree.child_of_child? ((Tree.child?_of_node? same _).trans holds)
            obtain ⟨object, created, new, after, creates, calls, built⟩ :=
              run_build config lifted.tidy (Tree.grown lifted.size inside) belowMiddle child
            rw [run_bind_ok (RuleStep.run_for drops), run_bind_ok (RuleStep.run_lift creates),
              run_bind_ok (RuleStep.run_lift calls)]
            exact ⟨_, after, new, rfl, lifted.trans inside built, Or.inr rfl⟩
        · obtain ⟨after, renames, renamed⟩ := Tree.run_rename tidyCreation insideCreation held shaped
            config.replacement
          rw [run_bind_ok (RuleStep.run_lift renames)]
          exact Tree.safely_unchanged (renamed.reworked.lift tidy below inside)

end NewToBuilder

namespace WrapArguments

theorem builds_wrapped (config : WrapArguments) (values : List NodeId) :
    Edit.Builds values (config.wrapped values) := by
  have builds : Edit.Builds (values ++ []) (config.wrapped values) :=
    Edit.builds_bind (Edit.builds_argumentsOf values) fun arguments =>
      Edit.builds_newInstance config.className (some arguments)
  rwa [List.append_nil] at builds

def Contents.Stands (tree : Tree) (call : NodeId) : Contents → Prop
  | .nothing => True
  | .items left => ∃ array, tree.Below call array ∧ left.Nodup ∧ ∀ item ∈ left,
      (Slot.item, item) ∈ tree.children array ∧ ∃ value, tree.child? item .value = some value
  | .values passed => ∃ list, tree.child? call .arguments = some list ∧ passed.Nodup
      ∧ ∀ value ∈ passed, ∃ argument,
        (Slot.argument, argument) ∈ tree.children list ∧ (Slot.value, value) ∈ tree.children argument

section

variable {tree : Tree} {call : NodeId}

theorem value_held {list value : NodeId} (kind : tree.kind? call = some .methodCall)
    (held : tree.child? call .arguments = some list) {position : Nat}
    (found : tree.positionalValue? call position = some value) :
    ∃ argument, (tree.childrenIn list .argument)[position]? = some argument
      ∧ tree.children argument = [(.value, value)] := by
  obtain ⟨other, argument, also, listed, shaped⟩ := Tree.positionalValue?_eq_some found
  have slot : tree.listSlot call = .arguments := by
    rw [Tree.listSlot, kind, if_neg (by decide)]
  rw [slot, held] at also
  cases also
  exact ⟨argument, listed, Tree.children_of_shape? shaped⟩

theorem stands_values (tidy : tree.Tidy call) (kind : tree.kind? call = some .methodCall)
    {first : NodeId} (found : tree.positionalValue? call 0 = some first) :
    (Contents.values (first :: (tree.positionalValue? call 1).toList)).Stands tree call := by
  obtain ⟨list, _, held, _⟩ := Tree.positionalValue?_eq_some found
  rw [Tree.listSlot, kind, if_neg (by decide)] at held
  have member : ∀ {position : Nat} {value argument : NodeId},
      (tree.childrenIn list .argument)[position]? = some argument →
      tree.children argument = [(Slot.value, value)] →
      (Slot.argument, argument) ∈ tree.children list
        ∧ (Slot.value, value) ∈ tree.children argument := by
    intro position value argument listed children
    refine ⟨Tree.mem_childrenIn.mp (List.mem_of_getElem? listed), ?_⟩
    rw [children]
    exact List.mem_cons_self
  have holder : ∀ value, (∃ position, tree.positionalValue? call position = some value) →
      ∃ argument, (Slot.argument, argument) ∈ tree.children list
        ∧ (Slot.value, value) ∈ tree.children argument := by
    rintro value ⟨position, passed⟩
    obtain ⟨argument, listed, children⟩ := value_held kind held passed
    exact ⟨argument, member listed children⟩
  refine ⟨list, held, ?_, ?_⟩
  · refine List.nodup_cons.mpr ⟨?_, by cases tree.positionalValue? call 1 <;> simp⟩
    intro again
    -- One value in two places would make the first argument the second one too.
    obtain ⟨argument, listed, children⟩ := value_held kind held found
    obtain ⟨other, also, holds⟩ := value_held kind held (Option.mem_toList.mp again)
    have below : tree.Below call list := .child .self (Tree.child_of_child? held)
    obtain ⟨child, value⟩ := member listed children
    obtain ⟨otherChild, otherValue⟩ := member also holds
    obtain ⟨rfl, _⟩ := tidy.holder_eq (below.child child) (below.child otherChild) value otherValue rfl
    have nodup := Tree.nodup_childrenIn (tidy.keeps below) .argument
    have positions := (List.getElem?_inj (List.getElem?_eq_some_iff.mp listed).1 nodup).mp
      (listed.trans also.symm)
    cases positions
  · intro value listed
    rcases List.mem_cons.mp listed with rfl | second
    · exact holder value ⟨0, found⟩
    · exact holder value ⟨1, Option.mem_toList.mp second⟩

theorem stands_contents (config : WrapArguments) (tidy : tree.Tidy call)
    (kind : tree.kind? call = some .methodCall) : (config.contents tree call).Stands tree call := by
  unfold contents
  split
  · exact True.intro
  · next first found =>
      obtain ⟨list, argument, held, listed, shaped⟩ := Tree.positionalValue?_eq_some found
      have below : tree.Below call first := by
        have among := Tree.mem_childrenIn.mp (List.mem_of_getElem? listed)
        have value : (Slot.value, first) ∈ tree.children argument := by
          rw [Tree.children_of_shape? shaped]
          exact List.mem_cons_self
        exact .child (.child (.child .self (Tree.child_of_child? held)) among) value
      split
      · next items legacy read =>
          split
          · exact True.intro
          · refine ⟨first, below, ?_, ?_⟩
            · have nodup := (tidy.keeps below).nodup_tagged (Tree.children_of_shape? read)
              exact nodup.sublist List.filter_sublist
            · intro item member
              obtain ⟨among, needs⟩ := List.mem_filter.mp member
              refine ⟨Tree.child_of_array read among, ?_⟩
              unfold needsWrap at needs
              split at needs
              · next key value spelled =>
                  refine ⟨value, ?_⟩
                  rw [Tree.child?, Tree.childrenIn, Tree.children_of_shape? spelled]
                  cases key <;> rfl
              · cases needs
      · split
        · exact True.intro
        · exact stands_values tidy kind found

/-- A new list of arguments takes the place of the old one. -/
theorem run_wrapValues (config : WrapArguments) (tidy : tree.Tidy call) {values : List NodeId}
    (stands : (Contents.values values).Stands tree call) :
    ∃ list object middle new next after, tree.child? call .arguments = some list
      ∧ (config.wrapped values).run tree = (.ok object, middle)
      ∧ (Edit.argumentsOf [object]).run middle = (.ok new, next)
      ∧ (Edit.replaceAt (some ⟨call, .arguments⟩) list new).run next = (.ok (), after)
      ∧ (config.wrapValues call values).run tree = (.ok (), after)
      ∧ tree.Reworked call after call := by
  obtain ⟨list, held, nodup, placed⟩ := stands
  have child := Tree.child_of_child? held
  have tidyList : tree.Tidy list := tidy.sub (.child .self child)
  have below : ∀ value ∈ values, tree.Below list value ∧ value ≠ list := by
    intro value member
    obtain ⟨argument, among, holds⟩ := placed value member
    have reached : tree.Below list argument := .child .self among
    exact ⟨reached.child holds, tidyList.topless reached holds⟩
  -- Two values stand below one argument, side by side, or below two arguments of the list.
  have apart : ∀ first ∈ values, ∀ second ∈ values, first ≠ second →
      ∀ {id}, tree.Below first id → ¬ tree.Below second id := by
    intro first firstMember second secondMember differ id inner
    obtain ⟨argument, among, holds⟩ := placed first firstMember
    obtain ⟨other, also, holdsOther⟩ := placed second secondMember
    by_cases same : argument = other
    · subst same
      exact tidyList.disjoint (.child .self among) holds holdsOther differ inner
    · intro within
      refine tidyList.disjoint .self among also same ?_ (.trans (.child .self holdsOther) within)
      exact .trans (.child .self holds) inner
  have gathered : tree.Gathered list tree (values ++ []) := by
    rw [List.append_nil]
    exact tidyList.gathered nodup below apart
  have inside : tree.contains list := tidy.contains_child .self child
  obtain ⟨object, middle, wraps, gatheredObject, built⟩ :=
    builds_wrapped config values _ _ _ [] inside gathered
  obtain ⟨new, next, lists, gatheredNew, builtNew⟩ :=
    Edit.builds_argumentsOf [object] _ _ _ [] inside gatheredObject
  have fresh : ¬ tree.contains new := fun early => builtNew.fresh (Tree.grown built.size early)
  obtain ⟨after, replaces, swapped⟩ :=
    Tree.run_replaceAt_head ⟨call, .arguments⟩ gatheredNew tidy child fresh
  refine ⟨list, object, middle, new, next, after, held, wraps, lists, replaces, ?_, swapped.reworked⟩
  rw [wrapValues, run_bind_ok (RuleStep.run_requireChild held _),
    run_bind_ok (RuleStep.run_lift wraps), run_bind_ok (RuleStep.run_lift lists)]
  exact RuleStep.run_lift replaces

/-- A new item takes the place of the old one, with its key and its value wrapped. -/
theorem run_wrapItem (config : WrapArguments) {array item value : NodeId}
    (tidy : tree.Tidy array) (child : (Slot.item, item) ∈ tree.children array)
    (held : tree.child? item .value = some value) :
    ∃ object middle new next after,
      (config.wrapped ((tree.child? item .key).toList ++ [value])).run tree = (.ok object, middle)
      ∧ (Edit.arrayItem none object).run middle = (.ok new, next)
      ∧ (Edit.replaceAt (some ⟨array, .item⟩) item new).run next = (.ok (), after)
      ∧ (config.wrapItem item).run tree = (.ok (), after)
      ∧ tree.Swapped ⟨array, .item⟩ item after (some new) := by
  have tidyItem : tree.Tidy item := tidy.sub (.child .self child)
  have inside : tree.contains item := tidy.contains_child .self child
  have parts : ∀ part ∈ (tree.child? item .key).toList ++ [value],
      ∃ slot, (slot, part) ∈ tree.children item := by
    intro part member
    rcases List.mem_append.mp member with key | last
    · exact ⟨.key, Tree.child_of_child? (Option.mem_toList.mp key)⟩
    · cases List.mem_singleton.mp last
      exact ⟨.value, Tree.child_of_child? held⟩
  have nodup : ((tree.child? item .key).toList ++ [value]).Nodup := by
    cases keyed : tree.child? item .key with
    | none => simp
    | some key =>
        -- One node does not stand in two slots.
        have differ : key ≠ value := by
          intro same
          obtain ⟨_, slots⟩ := tidyItem.holder_eq .self .self (Tree.child_of_child? keyed)
            (Tree.child_of_child? held) same
          cases slots
        simp [differ]
  have gathered : tree.Gathered item tree ((tree.child? item .key).toList ++ [value] ++ []) := by
    rw [List.append_nil]
    apply tidyItem.gathered nodup
    · intro part member
      obtain ⟨slot, holds⟩ := parts part member
      exact ⟨.child .self holds, tidyItem.topless .self holds⟩
    · intro first firstMember second secondMember differ id inner
      obtain ⟨_, holds⟩ := parts first firstMember
      obtain ⟨_, also⟩ := parts second secondMember
      exact tidyItem.disjoint .self holds also differ inner
  obtain ⟨object, middle, wraps, gatheredObject, built⟩ :=
    builds_wrapped config _ _ _ _ [] inside gathered
  obtain ⟨new, next, items, gatheredNew, builtNew⟩ :=
    Edit.builds_arrayItem object _ _ _ [] inside gatheredObject
  have fresh : ¬ tree.contains new := fun early => builtNew.fresh (Tree.grown built.size early)
  obtain ⟨after, replaces, swapped⟩ :=
    Tree.run_replaceAt_head ⟨array, .item⟩ gatheredNew tidy child fresh
  have points : next.parent? item = some ⟨array, .item⟩ :=
    gatheredNew.place.trans (tidy.named .self child)
  refine ⟨object, middle, new, next, after, wraps, items, replaces, ?_, swapped⟩
  rw [wrapItem, run_bind_ok (RuleStep.run_get tree),
    run_bind_ok (RuleStep.run_requireChild held _), run_bind_ok (RuleStep.run_lift wraps),
    run_bind_ok (RuleStep.run_lift items), run_bind_ok (RuleStep.run_get next), points]
  exact RuleStep.run_lift replaces

theorem run_wrapItems (config : WrapArguments) {array : NodeId} {items : List NodeId}
    (nodup : items.Nodup) (tidy : tree.Tidy array) (inside : tree.contains array)
    (stand : ∀ item ∈ items, (Slot.item, item) ∈ tree.children array
      ∧ ∃ value, tree.child? item .value = some value) :
    ∃ after, (items.forM config.wrapItem).run tree = (.ok (), after)
      ∧ tree.Reworked array after array := by
  induction items generalizing tree with
  | nil => exact ⟨tree, rfl, tidy.reworked⟩
  | cons item rest ih =>
      obtain ⟨apart, nodupRest⟩ := List.nodup_cons.mp nodup
      obtain ⟨child, value, held⟩ := stand item List.mem_cons_self
      obtain ⟨_, _, new, _, middle, _, _, _, wraps, swapped⟩ := run_wrapItem config tidy child held
      -- The other items stay where they are, as they are.
      have remain : ∀ other ∈ rest, (Slot.item, other) ∈ middle.children array
          ∧ ∃ value, middle.child? other .value = some value := by
        intro other member
        obtain ⟨among, otherValue, holds⟩ := stand other (List.mem_cons_of_mem _ member)
        have differ : other ≠ item := fun same => apart (same ▸ member)
        have same := swapped.still (tidy.contains_child .self among)
          (tidy.disjoint .self among child differ .self) (tidy.topless .self among)
        exact ⟨swapped.children.mpr (Or.inr ⟨among, differ⟩), otherValue,
          (Tree.child?_of_node? same _).trans holds⟩
      obtain ⟨after, wrapsRest, reworked⟩ :=
        ih nodupRest swapped.reworked.tidy (Tree.grown swapped.reworked.size inside) remain
      have unrolled : (item :: rest).forM config.wrapItem
          = config.wrapItem item >>= fun _ => rest.forM config.wrapItem := rfl
      refine ⟨after, ?_, swapped.reworked.trans inside reworked⟩
      rw [unrolled, run_bind_ok wraps, wrapsRest]

/-- The name of the call holds nothing, so that a new name leaves what is to be wrapped in place. -/
theorem Contents.Stands.renamed {after : Tree} {method : NodeId} {title : String}
    {contents : Contents} (stands : contents.Stands tree call)
    (renamed : tree.Renamed call method after)
    (spelled : tree.shape? method = some (.name title)) : contents.Stands after call := by
  have same : ∀ {holder child}, child ∈ tree.children holder →
      after.node? holder = tree.node? holder := by
    intro holder child held
    apply renamed.still (Tree.contains_of_child held)
    rintro rfl
    rw [Tree.children_of_shape? spelled] at held
    cases held
  have children : ∀ {holder child}, child ∈ tree.children holder →
      child ∈ after.children holder := by
    intro holder child held
    rw [Tree.children, Tree.shape?_of_node_eq (same held)]
    exact held
  have reaches : ∀ {id}, tree.Below call id → after.Below call id := by
    intro id below
    induction below with
    | self => exact .self
    | child _ held ih => exact .child ih (children held)
  cases contents with
  | nothing => exact True.intro
  | items left =>
      obtain ⟨array, below, nodup, stand⟩ := stands
      refine ⟨array, reaches below, nodup, ?_⟩
      intro item member
      obtain ⟨child, value, held⟩ := stand item member
      exact ⟨children child, value,
        (Tree.child?_of_node? (same (Tree.child_of_child? held)) _).trans held⟩
  | values passed =>
      obtain ⟨list, held, nodup, placed⟩ := stands
      refine ⟨list, (Tree.child?_of_node? (same (Tree.child_of_child? held)) _).trans held, nodup, ?_⟩
      intro value member
      obtain ⟨argument, among, holds⟩ := placed value member
      exact ⟨argument, children among, children holds⟩

theorem run_contents (config : WrapArguments) (tidy : tree.Tidy call) (inside : tree.contains call)
    {contents : Contents} (stands : contents.Stands tree call) :
    ∃ after, (match contents with
        | .nothing => pure .unchanged
        | .items left => do
            left.forM config.wrapItem
            pure .unchanged
        | .values passed => do
            config.wrapValues call passed
            pure .unchanged : RuleStep Verdict).run tree = (.ok .unchanged, after)
      ∧ tree.Reworked call after call := by
  cases contents with
  | nothing => exact ⟨tree, rfl, tidy.reworked⟩
  | items left =>
      obtain ⟨array, below, nodup, stand⟩ := stands
      obtain ⟨after, wraps, reworked⟩ := run_wrapItems config nodup (tidy.sub below)
        (tidy.contains_below inside below) stand
      exact ⟨after, run_bind_ok wraps _, reworked.lift tidy below inside⟩
  | values passed =>
      obtain ⟨_, _, _, _, _, after, _, _, _, _, wraps, reworked⟩ := run_wrapValues config tidy stands
      exact ⟨after, run_bind_ok wraps _, reworked⟩

end

theorem safe (config : WrapArguments) : config.rule.Safe where
  inner := rfl
  accepts _ _ _ := ⟨_, rfl⟩
  applies := by
    intro tree call _ inside tidy offered context
    have unfolded : (config.rule.apply call context).run tree = (config.apply call).run tree := rfl
    rw [unfolded, apply, run_bind_ok (RuleStep.run_get tree)]
    cases found : config.plan tree call with
    | none => exact Tree.safely_unchanged tidy.reworked
    | some plan =>
        obtain ⟨title, named, planned⟩ := Option.bind_eq_some_iff.mp found
        obtain ⟨newName, _, given⟩ := Option.bind_eq_some_iff.mp planned
        dsimp only at given
        obtain ⟨_, same⟩ := Option.ite_none_right_eq_some.mp given
        cases same
        obtain ⟨kind, slot, method, read, slotted, held, shaped⟩ := Tree.callName?_eq_some named
        rw [read] at offered
        have called : kind = .methodCall := by simpa [rule] using offered
        subst called
        cases slotted
        have stands := stands_contents config tidy read
        dsimp only
        split
        · next chosen _ =>
            obtain ⟨middle, sets, renamed⟩ := Tree.run_rename tidy inside held shaped chosen
            obtain ⟨after, wraps, reworked⟩ := run_contents config renamed.reworked.tidy
              (Tree.grown renamed.reworked.size inside) (stands.renamed renamed shaped)
            rw [held]
            dsimp only
            rw [run_bind_ok (RuleStep.run_lift sets)]
            have done := Tree.safely_unchanged (renamed.reworked.trans inside reworked)
            rwa [← wraps] at done
        · obtain ⟨after, wraps, reworked⟩ := run_contents config tidy inside stands
          have done := Tree.safely_unchanged reworked
          rwa [← wraps] at done

end WrapArguments

/-- Of the rules that can be configured, only the one that flattens chains may fail. -/
theorem Catalog.Makes.safe_or {id : String} {rule : Rule} (makes : Catalog.Makes id rule) :
    rule.Safe ∨ id = "extract_chain_arguments" := by
  cases makes with
  | renameFunction config => exact Or.inl config.safe
  | renameMethod config => exact Or.inl config.safe
  | newToBuilder config => exact Or.inl config.safe
  | renameType config => exact Or.inl config.safe
  | wrapArguments config => exact Or.inl config.safe
  | removeArgument config => exact Or.inl config.safe
  | stringToClassConstant config => exact Or.inl config.safe
  | renameMethodByArgument config => exact Or.inl config.safe
  | extractChainArguments config => exact Or.inr rfl

theorem Catalog.safe_of_build {specs : List RuleSpec} {rules : List Rule}
    (built : Catalog.build specs = .ok rules)
    (plain : ∀ spec ∈ specs, spec.id ≠ "extract_chain_arguments") : ∀ rule ∈ rules, rule.Safe := by
  intro rule member
  obtain ⟨spec, among, makes⟩ := Catalog.makes_of_build built rule member
  rcases makes.safe_or with safe | named
  · exact safe
  · exact absurd named (plain spec among)

end Codemod
