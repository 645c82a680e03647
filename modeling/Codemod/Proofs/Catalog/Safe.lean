import Codemod.Catalog
import Codemod.Proofs.Catalog.Calls

/-!
Rules that cannot fail. On a subtree in which every node is held once, a rule of the catalog answers,
and what it leaves is held once again, apart from the node it replaces. The rule that flattens chains
is not among them: it may take a value that it also leaves where it was.
-/

namespace Codemod

open Step

namespace Tree

/-- A step of a rule at a node ended well: the subtree was reworked, and the verdict says into what. -/
def Safely (tree : Tree) (node : NodeId) (result : Except Failure Verdict × Tree) : Prop :=
  ∃ verdict after new, result = (.ok verdict, after) ∧ tree.Reworked node after new
    ∧ (verdict = .unchanged ∧ new = node ∨ verdict = .replaced new)

theorem safely_unchanged {tree after : Tree} {node : NodeId} (reworked : tree.Reworked node after node) :
    tree.Safely node (.ok .unchanged, after) :=
  ⟨.unchanged, after, node, rfl, reworked, Or.inl ⟨rfl, rfl⟩⟩

end Tree

namespace Catalog

inductive Makes : String → Rule → Prop
  | renameFunction (config : RenameFunction) : Makes "rename_function" config.rule
  | renameMethod (config : RenameMethod) : Makes "rename_method" config.rule
  | newToBuilder (config : NewToBuilder) : Makes "new_to_builder" config.rule
  | renameType (config : RenameType) : Makes "rename_type" config.rule
  | wrapArguments (config : WrapArguments) : Makes "wrap_arguments" config.rule
  | removeArgument (config : RemoveArgument) : Makes "remove_argument" config.rule
  | stringToClassConstant (config : StringToClassConstant) :
      Makes "string_to_class_constant" config.rule
  | renameMethodByArgument (config : RenameMethodByArgument) :
      Makes "rename_method_by_argument" config.rule
  | extractChainArguments (config : ExtractChainArguments) :
      Makes "extract_chain_arguments" config.rule

theorem config_of_map {config : Type} {parsed : Except SpecError config} {make : config → Rule}
    {rule : Rule} (made : parsed.map make = .ok rule) : ∃ config, make config = rule := by
  cases parsed with
  | error reason => cases made
  | ok config => exact ⟨config, Except.ok.inj made⟩

theorem makes_of_create {spec : RuleSpec} {rule : Rule} (created : spec.create = .ok rule) :
    Makes spec.id rule := by
  unfold RuleSpec.create at created
  split at created
  · next entry found =>
      have same : entry.id = spec.id := by simpa using List.find?_some found
      rw [← same]
      have listed := List.mem_of_find?_eq_some found
      simp only [entries, List.mem_cons, List.not_mem_nil, or_false] at listed
      -- Whatever the parameters are, the entry makes a rule of its own kind.
      rcases listed with rfl | rfl | rfl | rfl | rfl | rfl | rfl | rfl | rfl <;>
        obtain ⟨config, rfl⟩ := config_of_map created <;>
        constructor
  · cases created

theorem build_getD {specs : List RuleSpec} (made : (build specs).toOption.isSome) :
    build specs = .ok ((build specs).toOption.getD []) := by
  cases ended : build specs with
  | error reason =>
      rw [ended] at made
      cases made
  | ok rules => rfl

/-- Every rule that is built was made from one of the specifications. -/
theorem created_of_build {specs : List RuleSpec} {rules : List Rule}
    (built : build specs = .ok rules) : ∀ rule ∈ rules, ∃ spec ∈ specs, spec.create = .ok rule := by
  induction specs generalizing rules with
  | nil =>
      cases built
      exact nofun
  | cons spec rest ih =>
      rw [build, List.mapM_cons] at built
      cases created : spec.create with
      | error reason =>
          rw [created] at built
          cases built
      | ok first =>
          cases others : build rest with
          | error reason =>
              rw [build] at others
              rw [created, others] at built
              cases built
          | ok later =>
              have whole := others
              rw [build] at others
              rw [created, others] at built
              cases built
              intro rule member
              rcases List.mem_cons.mp member with rfl | more
              · exact ⟨spec, List.mem_cons_self, created⟩
              · obtain ⟨other, among, makes⟩ := ih whole rule more
                exact ⟨other, List.mem_cons_of_mem _ among, makes⟩

theorem makes_of_build {specs : List RuleSpec} {rules : List Rule}
    (built : build specs = .ok rules) : ∀ rule ∈ rules, ∃ spec ∈ specs, Makes spec.id rule := by
  intro rule member
  obtain ⟨spec, among, created⟩ := created_of_build built rule member
  exact ⟨spec, among, makes_of_create created⟩

end Catalog

/-- The rule is never offered a whole program. It always says whether it applies, and where it is
offered a node it ends well. -/
structure Rule.Safe (rule : Rule) : Prop where
  inner : rule.kinds.contains .program = false
  accepts : ∀ {tree : Tree}, tree.Proper → ∀ node context,
    ∃ accepted, rule.accepts tree node context = .ok accepted
  applies : ∀ {tree : Tree} {node : NodeId}, tree.Proper → tree.contains node → tree.Tidy node →
    (tree.kind? node).any rule.kinds.contains → ∀ context,
      tree.Safely node ((rule.apply node context).run tree)

theorem RenameFunction.safe (config : RenameFunction) : config.rule.Safe where
  inner := rfl
  accepts _ _ _ := ⟨_, rfl⟩
  applies := by
    intro tree call _ inside tidy offered context
    have unfolded : (config.rule.apply call context).run tree = (config.apply call).run tree := rfl
    rw [unfolded, apply, run_bind_ok (RuleStep.run_get tree)]
    dsimp only
    cases found : config.target? tree call with
    | none => exact Tree.safely_unchanged tidy.reworked
    | some renamed =>
        obtain ⟨title, named, _⟩ := Option.bind_eq_some_iff.mp found
        obtain ⟨kind, slot, callee, read, slotted, held, shaped⟩ := Tree.callName?_eq_some named
        rw [read] at offered
        have function : kind = .functionCall := by simpa [rule] using offered
        subst function
        cases slotted
        obtain ⟨after, renames, done⟩ := Tree.run_rename tidy inside held shaped renamed
        dsimp only
        rw [run_bind_ok (RuleStep.run_requireChild held _), run_bind_ok (RuleStep.run_lift renames)]
        exact Tree.safely_unchanged done.reworked

theorem RenameMethod.safe (config : RenameMethod) : config.rule.Safe where
  inner := rfl
  accepts _ _ _ := ⟨_, rfl⟩
  applies := by
    intro tree call _ inside tidy offered context
    have unfolded : (config.rule.apply call context).run tree = (config.apply call).run tree := rfl
    rw [unfolded, apply, run_bind_ok (RuleStep.run_get tree)]
    dsimp only
    cases found : config.target? tree call with
    | none => exact Tree.safely_unchanged tidy.reworked
    | some renamed =>
        obtain ⟨title, named, _⟩ := Option.bind_eq_some_iff.mp found
        obtain ⟨kind, slot, method, read, slotted, held, shaped⟩ := Tree.callName?_eq_some named
        rw [read] at offered
        have called : kind = .methodCall := by simpa [rule] using offered
        subst called
        cases slotted
        obtain ⟨after, renames, done⟩ := Tree.run_rename tidy inside held shaped renamed
        dsimp only
        rw [held]
        dsimp only
        rw [run_bind_ok (RuleStep.run_lift renames)]
        exact Tree.safely_unchanged done.reworked

theorem RenameType.safe (config : RenameType) : config.rule.Safe where
  inner := rfl
  accepts _ _ _ := ⟨_, rfl⟩
  applies := by
    intro tree id _ inside tidy offered context
    have unfolded : (config.rule.apply id context).run tree = (config.apply id).run tree := rfl
    rw [unfolded, apply, run_bind_ok (RuleStep.run_get tree)]
    dsimp only
    cases found : config.target? tree id with
    | none => exact Tree.safely_unchanged tidy.reworked
    | some renamed =>
        obtain ⟨title, named, _⟩ := Option.bind_eq_some_iff.mp found
        obtain ⟨shape, shaped, spelled⟩ := Option.bind_eq_some_iff.mp named
        obtain ⟨after, renames, done⟩ :=
          Tree.run_setName shaped (Option.isSome_iff_exists.mpr ⟨title, spelled⟩) renamed
        dsimp only
        rw [run_bind_ok (RuleStep.run_lift renames)]
        exact Tree.safely_unchanged done

namespace RemoveArgument

theorem argument?_ok {tree : Tree} (proper : tree.Proper) (config : RemoveArgument) (call : NodeId) :
    ∃ found, config.argument? tree call = .ok found
      ∧ ∀ argument ∈ found, argument ∈ tree.arguments call := by
  unfold argument?
  by_cases accepted : config.target.accepts tree call
  · rw [if_pos accepted]
    cases listed : (tree.arguments call)[config.position]? with
    | none => exact ⟨none, rfl, nofun⟩
    | some argument =>
        have member := List.mem_of_getElem? listed
        have one : ∀ {keep : Prop} [Decidable keep] {other : NodeId},
            other ∈ (if keep then some argument else none) → other ∈ tree.arguments call := by
          intro keep _ other given
          split at given
          · cases given
            exact member
          · cases given
        cases config.value with
        | none => exact ⟨_, rfl, fun _ given => one given⟩
        | some expected =>
            dsimp only
            cases tree.positionalValue? call config.position with
            | none => exact ⟨none, rfl, nofun⟩
            | some value =>
                obtain ⟨text, reads⟩ := Tree.stringValue_ok proper value
                have answers : hasValue tree value expected
                    = .ok (tree.trimmedText? value == some (Text.trim expected)
                      || text == some expected) := by
                  rw [hasValue, reads]
                  rfl
                dsimp only
                rw [answers]
                exact ⟨_, rfl, fun _ given => one given⟩
  · rw [if_neg accepted]
    exact ⟨none, rfl, nofun⟩

theorem safe (config : RemoveArgument) : config.rule.Safe where
  inner := rfl
  accepts proper call context := by
    obtain ⟨found, answers, _⟩ := argument?_ok proper config call
    exact ⟨found.isSome, congrArg (Except.map Option.isSome) answers⟩
  applies := by
    intro tree call proper inside tidy offered context
    have unfolded : (config.rule.apply call context).run tree = (config.apply call).run tree := rfl
    obtain ⟨found, answers, listed⟩ := argument?_ok proper config call
    rw [unfolded, apply, run_bind_ok (RuleStep.run_ofQuery answers)]
    cases found with
    | none => exact Tree.safely_unchanged tidy.reworked
    | some argument =>
        obtain ⟨list, held, same⟩ := Tree.list_of_argument (listed argument rfl)
        have below : tree.Below call list := .child .self (Tree.child_of_child? held)
        have child := Tree.mem_childrenIn.mp (same ▸ listed argument rfl)
        obtain ⟨after, removes, swapped⟩ := Tree.run_remove ⟨list, .argument⟩ (tidy.sub below)
          child nofun
        dsimp only
        rw [run_bind_ok (RuleStep.run_lift removes)]
        exact Tree.safely_unchanged (swapped.reworked.lift tidy below inside)

end RemoveArgument

namespace StringToClassConstant

theorem replacement?_ok {tree : Tree} (proper : tree.Proper) (config : StringToClassConstant)
    (call : NodeId) (symbols : Symbols) :
    ∃ found, config.replacement? tree call symbols = .ok found
      ∧ ∀ value constant, found = some (value, constant) →
        tree.positionalValue? call config.position = some value := by
  unfold replacement?
  by_cases accepted : config.target.accepts tree call
  · rw [if_pos accepted]
    cases listed : tree.positionalValue? call config.position with
    | none => exact ⟨none, rfl, nofun⟩
    | some value =>
        obtain ⟨text, reads⟩ := Tree.stringValue_ok proper value
        refine ⟨_, by dsimp only; rw [reads]; rfl, ?_⟩
        intro other constant found
        obtain ⟨_, _, same⟩ := Option.map_eq_some_iff.mp found
        cases same
        rfl
  · rw [if_neg accepted]
    exact ⟨none, rfl, nofun⟩

theorem safe (config : StringToClassConstant) : config.rule.Safe where
  inner := rfl
  accepts proper call context := by
    obtain ⟨found, answers, _⟩ := replacement?_ok proper config call context.symbols
    exact ⟨found.isSome, congrArg (Except.map Option.isSome) answers⟩
  applies := by
    intro tree call proper inside tidy offered context
    have unfolded : (config.rule.apply call context).run tree
        = (config.apply call context).run tree := rfl
    obtain ⟨found, answers, passed⟩ := replacement?_ok proper config call context.symbols
    rw [unfolded, apply, run_bind_ok (RuleStep.run_ofQuery answers)]
    rcases found with _ | ⟨value, constant⟩
    · exact Tree.safely_unchanged tidy.reworked
    · obtain ⟨list, argument, held, listed, shaped⟩ :=
        Tree.positionalValue?_eq_some (passed value constant rfl)
      have below : tree.Below call argument :=
        .child (.child .self (Tree.child_of_child? held))
          (Tree.mem_childrenIn.mp (List.mem_of_getElem? listed))
      have child : (Slot.value, value) ∈ tree.children argument := by
        rw [Tree.children_of_shape? shaped]
        exact List.mem_cons_self
      have nothing : tree.Gathered value tree [] :=
        (tidy.sub (below.child child)).gathered List.nodup_nil nofun nofun
      obtain ⟨fetch, middle, builds, gathered, built⟩ :=
        Edit.builds_classConstFetch (Name.reference constant.className) constant.constant _ _ _ []
          (tidy.contains_child below child) nothing
      obtain ⟨after, replaces, swapped⟩ := Tree.run_replace_head ⟨argument, .value⟩ gathered
        (tidy.sub below) child built.fresh
      dsimp only
      rw [run_bind_ok (RuleStep.run_lift builds), run_bind_ok (RuleStep.run_lift replaces)]
      exact Tree.safely_unchanged (swapped.reworked.lift tidy below inside)

end StringToClassConstant

namespace RenameMethodByArgument

theorem newName_ok {tree : Tree} (proper : tree.Proper) (config : RenameMethodByArgument)
    (call : NodeId) : ∃ found, config.newName tree call = .ok found := by
  unfold newName
  cases tree.positionalValue? call config.position with
  | none => exact ⟨_, rfl⟩
  | some value =>
      obtain ⟨text, reads⟩ := Tree.stringValue_ok proper value
      dsimp only
      rw [byValue, reads]
      dsimp only [Bind.bind, Except.bind]
      cases text.bind (config.values.lookup ·) with
      | none => exact ⟨_, rfl⟩
      | some title => exact ⟨_, rfl⟩

theorem plan_ok {tree : Tree} (proper : tree.Proper) (config : RenameMethodByArgument)
    (call : NodeId) :
    ∃ found, config.plan tree call = .ok found ∧ ∀ plan ∈ found,
      (CallTarget.method config.method).accepts tree call ∧ plan.dropped.Sublist (tree.arguments call)
      ∧ (plan.rename.isSome → (tree.callName? call).isSome) := by
  unfold plan
  by_cases accepted : (CallTarget.method config.method).accepts tree call
  · rw [if_pos accepted]
    obtain ⟨found, answers⟩ := newName_ok proper config call
    rw [answers]
    refine ⟨_, rfl, ?_⟩
    intro plan planned
    obtain ⟨newName, _, given⟩ := Option.bind_eq_some_iff.mp planned
    unfold planFor at given
    dsimp only at given
    obtain ⟨_, same⟩ := Option.ite_none_right_eq_some.mp given
    cases same
    refine ⟨accepted, ?_, ?_⟩
    · dsimp only
      cases config.keep with
      | none => exact List.nil_sublist _
      | some keep => exact List.drop_sublist keep _
    · intro renames
      dsimp only at renames
      cases spelled : tree.callName? call with
      | none =>
          rw [spelled] at renames
          cases renames
      | some title => rfl
  · rw [if_neg accepted]
    exact ⟨none, rfl, nofun⟩

theorem safe (config : RenameMethodByArgument) : config.rule.Safe where
  inner := rfl
  accepts proper call context := by
    obtain ⟨found, answers, _⟩ := plan_ok proper config call
    exact ⟨found.isSome, congrArg (Except.map Option.isSome) answers⟩
  applies := by
    intro tree call proper inside tidy offered context
    have unfolded : (config.rule.apply call context).run tree = (config.apply call).run tree := rfl
    obtain ⟨found, answers, planned⟩ := plan_ok proper config call
    rw [unfolded, apply, run_bind_ok (RuleStep.run_ofQuery answers)]
    cases found with
    | none => exact Tree.safely_unchanged tidy.reworked
    | some plan =>
        obtain ⟨_, listed, renames⟩ := planned plan rfl
        obtain ⟨middle, drops, reworked, still⟩ := Tree.run_dropArguments tidy inside listed
        dsimp only
        rw [run_bind_ok (RuleStep.run_for drops)]
        cases rename : plan.rename with
        | none => exact Tree.safely_unchanged reworked
        | some newName =>
            obtain ⟨title, named⟩ := Option.isSome_iff_exists.mp (renames (by rw [rename]; rfl))
            obtain ⟨kind, slot, method, read, slotted, held, shaped⟩ := Tree.callName?_eq_some named
            have slots : kind ≠ .functionCall ∧ slot = .method ∧ slot ≠ tree.listSlot call := by
              rw [read] at offered
              have called : kind = .methodCall ∨ kind = .staticCall := by simpa [rule] using offered
              rw [Tree.listSlot, read]
              rcases called with rfl | rfl <;> cases slotted <;> simp
            obtain ⟨callSame, methodSame⟩ := still held slots.2.2
            obtain ⟨after, sets, renamed⟩ := Tree.run_rename reworked.tidy
              (Tree.grown reworked.size inside)
              ((Tree.child?_of_node? callSame slot).trans held)
              ((Tree.shape?_of_node_eq methodSame).trans shaped) newName
            have renamesCall : (Edit.renameCall call newName).run middle = (.ok (), after) := by
              rw [Edit.renameCall, run_bind_ok (Step.run_get middle)]
              dsimp only
              rw [Tree.kind?_of_node? callSame, read, if_neg (by simpa using slots.1),
                Tree.child?_of_node? callSame, ← slots.2.1, held]
              exact sets
            dsimp only
            rw [run_bind_ok (RuleStep.run_lift renamesCall)]
            exact Tree.safely_unchanged (reworked.trans inside renamed.reworked)

end RenameMethodByArgument

end Codemod
