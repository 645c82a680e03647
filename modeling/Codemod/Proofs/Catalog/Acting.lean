import Codemod.Proofs.Catalog.Counting
import Codemod.Proofs.Catalog.Wrapping
import Codemod.Proofs.Run.Resting

/-!
Rules that act where they apply: a node that such a rule accepts is one where it counts a revision. So
at rest the rule accepts no node. Two rules of the catalog also accept nodes where they have nothing
left to do: a creation without arguments of the class that it was to become, and a chain whose first
source has no value.
-/

namespace Codemod

open Step

/-- On a filed tree the rule counts something wherever it accepts the node. -/
def Rule.Acts (rule : Rule) : Prop :=
  ∀ {tree after : Tree} {node : NodeId} {context : Context} {verdict : Verdict}, tree.Filed →
    (tree.kind? node).any rule.kinds.contains → rule.accepts tree node context = .ok true →
      (rule.apply node context).run tree = (.ok verdict, after) → tree.Moved after

theorem Rule.Acts.refuses {rule : Rule} (acts : rule.Acts) {context : Context} {tree : Tree}
    {node : NodeId} (filed : tree.Filed) (offered : (tree.kind? node).any rule.kinds.contains)
    (rests : rule.Rests context tree node) : rule.accepts tree.checkpoint node context = .ok false := by
  rcases rests with refused | ⟨accepted, edited, applied, same⟩
  · exact refused
  · have opened := Tree.counted_of_commit (show tree.checkpoint.commit = tree.commit from rfl)
    have moved := acts (opened.filed filed) offered accepted applied
    exact absurd (Tree.revision_of_commit same) (Nat.ne_of_gt moved.more)

theorem Tree.kind_of_any {tree : Tree} {node : NodeId} {kind : Kind}
    (offered : (tree.kind? node).any [kind].contains) : tree.kind? node = some kind := by
  cases found : tree.kind? node with
  | none => simp [found] at offered
  | some other => simpa [found] using offered

-- A name is only chosen for a call that is spelled in another way.
theorem Tree.spelled_of_chosen {tree : Tree} {call : NodeId} {kind : Kind} {slot : Slot}
    {choose : String → Option String} {renamed : String} (read : tree.kind? call = some kind)
    (spells : nameSlot? kind = some slot)
    (found : (tree.callName? call).bind choose = some renamed)
    (differs : ∀ {title}, choose title = some renamed → renamed ≠ title) :
    ∃ title name, tree.child? call slot = some name ∧ tree.shape? name = some (.name title)
      ∧ renamed ≠ title := by
  obtain ⟨title, spelled, chosen⟩ := Option.bind_eq_some_iff.mp found
  obtain ⟨other, place, name, known, takes, stands, shaped⟩ := callName?_eq_some spelled
  cases read.symm.trans known
  cases spells.symm.trans takes
  exact ⟨title, name, stands, shaped, differs chosen⟩

theorem RenameFunction.acts (config : RenameFunction) : config.rule.Acts := by
  intro tree after call context verdict filed offered accepted ran
  have kind := Tree.kind_of_any offered
  obtain ⟨renamed, found⟩ := Option.isSome_iff_exists.mp (Except.ok.inj accepted)
  change (config.apply call).run tree = _ at ran
  rw [apply, run_bind_ok (RuleStep.run_get tree), found] at ran
  obtain ⟨callee, middle, requires, goes⟩ := run_bind_eq_ok.mp ran
  obtain ⟨held, rfl⟩ := RuleStep.requireChild_ok requires
  obtain ⟨_, last, names, ends⟩ := run_bind_eq_ok.mp goes
  cases ends
  obtain ⟨title, name, stands, shaped, differ⟩ := Tree.spelled_of_chosen kind rfl found <| by
    intro title chosen
    obtain ⟨newName, _, given⟩ := Option.bind_eq_some_iff.mp chosen
    obtain ⟨differ, same⟩ := Option.ite_none_left_eq_some.mp given
    exact Option.some.inj same ▸ differ
  cases held.symm.trans stands
  exact Edit.setName_moves shaped differ (RuleStep.lift_ok names)

theorem RenameMethod.acts (config : RenameMethod) : config.rule.Acts := by
  intro tree after call context verdict filed offered accepted ran
  have kind := Tree.kind_of_any offered
  obtain ⟨renamed, found⟩ := Option.isSome_iff_exists.mp (Except.ok.inj accepted)
  obtain ⟨title, name, stands, shaped, differ⟩ := Tree.spelled_of_chosen kind rfl found <| by
    intro title chosen
    obtain ⟨newName, _, given⟩ := Option.bind_eq_some_iff.mp chosen
    obtain ⟨differ, same⟩ := Option.ite_none_left_eq_some.mp given
    exact Option.some.inj same ▸ differ
  change (config.apply call).run tree = _ at ran
  rw [apply, run_bind_ok (RuleStep.run_get tree), found] at ran
  dsimp only at ran
  rw [stands] at ran
  obtain ⟨_, last, names, ends⟩ := run_bind_eq_ok.mp ran
  cases ends
  exact Edit.setName_moves shaped differ (RuleStep.lift_ok names)

theorem RenameType.acts (config : RenameType) : config.rule.Acts := by
  intro tree after id context verdict filed offered accepted ran
  have kind := Tree.kind_of_any offered
  obtain ⟨renamed, found⟩ := Option.isSome_iff_exists.mp (Except.ok.inj accepted)
  obtain ⟨title, spelled, chosen⟩ := Option.bind_eq_some_iff.mp found
  obtain ⟨newName, _, given⟩ := Option.bind_eq_some_iff.mp chosen
  obtain ⟨⟨differ, _⟩, same⟩ := Option.ite_none_right_eq_some.mp given
  obtain ⟨shape, shaped, reads⟩ := Option.bind_eq_some_iff.mp spelled
  have named : tree.shape? id = some (.name title) := by
    rw [shaped]
    have name : shape.kind = .name := Option.some.inj ((Tree.kind?_of_shape? shaped).symm.trans kind)
    cases shape <;> cases name
    cases reads
    rfl
  change (config.apply id).run tree = _ at ran
  rw [apply, run_bind_ok (RuleStep.run_get tree), found] at ran
  obtain ⟨_, last, names, ends⟩ := run_bind_eq_ok.mp ran
  cases ends
  cases same
  exact Edit.setName_moves named differ (RuleStep.lift_ok names)

theorem RemoveArgument.acts (config : RemoveArgument) : config.rule.Acts := by
  intro tree after call context verdict filed _ accepted ran
  change (config.argument? tree call).map Option.isSome = _ at accepted
  cases answers : config.argument? tree call with
  | error crash =>
      rw [answers] at accepted
      cases accepted
  | ok found =>
      rw [answers] at accepted
      obtain ⟨argument, rfl⟩ := Option.isSome_iff_exists.mp (Except.ok.inj accepted)
      exact (apply_moves filed answers ran).2

theorem RenameMethodByArgument.acts (config : RenameMethodByArgument) : config.rule.Acts := by
  intro tree after call context verdict filed _ accepted ran
  change (config.plan tree call).map Option.isSome = _ at accepted
  cases answers : config.plan tree call with
  | error crash =>
      rw [answers] at accepted
      cases accepted
  | ok found =>
      rw [answers] at accepted
      obtain ⟨planned, rfl⟩ := Option.isSome_iff_exists.mp (Except.ok.inj accepted)
      exact (apply_moves filed answers ran).2

theorem StringToClassConstant.acts (config : StringToClassConstant) : config.rule.Acts := by
  intro tree after call context verdict filed _ accepted ran
  change (config.replacement? tree call context.symbols).map Option.isSome = _ at accepted
  cases answers : config.replacement? tree call context.symbols with
  | error crash =>
      rw [answers] at accepted
      cases accepted
  | ok found =>
      rw [answers] at accepted
      obtain ⟨⟨value, constant⟩, rfl⟩ := Option.isSome_iff_exists.mp (Except.ok.inj accepted)
      exact (apply_moves filed answers ran).2

theorem WrapArguments.acts (config : WrapArguments) : config.rule.Acts := by
  intro tree after call context verdict filed offered accepted ran
  obtain ⟨planned, found⟩ := Option.isSome_iff_exists.mp (Except.ok.inj accepted)
  exact (apply_moves filed (Tree.kind_of_any offered) found ran).2

namespace NewToBuilder

-- There is nothing to build from the node, and a creation that the rule accepts is of the class
-- that it was to become.
def Done (config : NewToBuilder) (tree : Tree) (id : NodeId) : Prop :=
  config.target? tree id = none
    ∨ tree.kind? id = some .new ∧ tree.arguments id = []
      ∧ tree.instantiatedClass? id = some config.replacement

variable {config : NewToBuilder} {tree : Tree} {id : NodeId} {context : Context}

/-- Parentheses are taken with the creation only where it has arguments. -/
theorem target?_bare {creation : NodeId} (found : config.target? tree id = some creation)
    (none : tree.arguments creation = []) : creation = id := by
  unfold target? at found
  split at found
  · exact (Option.some.inj (Option.ite_none_right_eq_some.mp found).2).symm
  · obtain ⟨_, accepted⟩ := Option.filter_eq_some_iff.mp found
    simp [none] at accepted
  · cases found

theorem done_of_applied {edited : Tree} (same : edited.revision = tree.revision)
    (ran : (config.apply id).run tree = (.ok .unchanged, edited)) : config.Done tree id := by
  cases found : config.target? tree id with
  | none => exact Or.inl found
  | some creation =>
      obtain ⟨_, kind, className, title, held, shaped⟩ := target?_eq_some found
      rw [apply, run_bind_ok (RuleStep.run_get tree), found] at ran
      dsimp only at ran
      rw [run_bind_ok (RuleStep.run_requireChild held _)] at ran
      split at ran
      · obtain ⟨_, second, removes, builds⟩ := run_bind_eq_ok.mp ran
        obtain ⟨object, third, creates, calls⟩ := run_bind_eq_ok.mp builds
        obtain ⟨new, fourth, makes, ends⟩ := run_bind_eq_ok.mp calls
        cases ends
      · next bare =>
          obtain ⟨_, last, names, ends⟩ := run_bind_eq_ok.mp ran
          cases ends
          have none : tree.arguments creation = [] := by
            refine List.eq_nil_iff_forall_not_mem.mpr fun argument member => ?_
            obtain ⟨list, listed, _⟩ := Tree.list_of_argument member
            rw [Tree.listSlot, if_pos kind] at listed
            obtain ⟨head, extra, cons⟩ := List.exists_cons_of_ne_nil (List.ne_nil_of_mem member)
            exact bare head extra list cons listed
          have named : title = config.replacement := by
            refine Classical.byContradiction fun differ => ?_
            have moved := Edit.setName_moves shaped (Ne.symm differ) (RuleStep.lift_ok names)
            exact absurd same (Nat.ne_of_gt moved.more)
          obtain rfl := target?_bare found none
          refine Or.inr ⟨kind, none, ?_⟩
          rw [Tree.instantiatedClass?, held, Option.bind_some, Tree.spelledName?, shaped, named]

theorem run_done (done : config.Done tree id) (accepted : (config.target? tree id).isSome) :
    (config.apply id).run tree = (.ok .unchanged, tree) := by
  obtain ⟨creation, found⟩ := Option.isSome_iff_exists.mp accepted
  obtain ⟨kind, none, named⟩ := done.resolve_left (found ▸ Option.some_ne_none creation)
  obtain ⟨className, held, spells⟩ := Option.bind_eq_some_iff.mp named
  have same : creation = id := by
    rw [target?, kind] at found
    exact (Option.some.inj (Option.ite_none_right_eq_some.mp found).2).symm
  subst same
  rw [apply, run_bind_ok (RuleStep.run_get tree), found]
  dsimp only
  rw [run_bind_ok (RuleStep.run_requireChild held _), none]
  dsimp only
  rw [run_bind_ok (RuleStep.run_lift (Tree.run_setName_same (Tree.shape?_of_spelledName? spells)))]
  rfl

/-- At rest, the node is done with; and the rule leaves a node that is done with as it is. -/
theorem rests_iff_done : config.rule.Rests context tree id ↔ config.Done tree.checkpoint id := by
  constructor
  · rintro (refused | ⟨_, edited, applied, same⟩)
    · left
      rw [← Option.not_isSome_iff_eq_none]
      simpa using Except.ok.inj refused
    · exact done_of_applied (Tree.revision_of_commit same) applied
  · intro done
    cases accepted : (config.target? tree.checkpoint id).isSome with
    | false => exact Or.inl (congrArg Except.ok accepted)
    | true => exact Or.inr ⟨congrArg Except.ok accepted, _, run_done done accepted, rfl⟩

end NewToBuilder

namespace ExtractChainArguments

-- No call of the first source in the chain has a value to pass on.
def Done (config : ExtractChainArguments) (tree : Tree) (call : NodeId) : Prop :=
  ∀ chain, config.chain? tree call = some chain → ∀ source ∈ tree.descendants chain,
    config.sourceIndex? tree source = some 0 → tree.positionalValue? source 0 = none

variable {config : ExtractChainArguments} {tree : Tree} {call : NodeId} {context : Context}

theorem head_values_iff (chain : NodeId) :
    ((config.values tree chain).head?.bind id).isSome = false
      ↔ ∀ source ∈ tree.descendants chain, config.sourceIndex? tree source = some 0 →
        tree.positionalValue? source 0 = none := by
  rw [values, List.head?_map]
  cases count : config.sources.length with
  | zero =>
      have unlisted : config.sources = [] := List.eq_nil_of_length_eq_zero count
      simp [sourceIndex?, unlisted]
  | succ count =>
      simp [List.head?_range, List.findSome?_eq_none_iff]

/-- At rest, there is nothing in the chain to pass on; and the rule leaves such a call as it is. -/
theorem rests_iff_done (filed : tree.Filed) :
    config.rule.Rests context tree call ↔ config.Done tree.checkpoint call := by
  cases found : config.chain? tree.checkpoint call with
  | none =>
      have refused : config.rule.accepts tree.checkpoint call context = .ok false :=
        congrArg (Except.ok ∘ Option.isSome) found
      refine iff_of_true (Or.inl refused) ?_
      rintro chain same
      cases found.symm.trans same
  | some chain =>
      have accepted : config.rule.accepts tree.checkpoint call context = .ok true :=
        congrArg (Except.ok ∘ Option.isSome) found
      have idle : config.Done tree.checkpoint call
          ↔ ((config.values tree.checkpoint chain).head?.bind id).isSome = false := by
        rw [head_values_iff, Done, found]
        simp
      rw [idle]
      constructor
      · rintro (refused | ⟨_, edited, applied, same⟩)
        · cases accepted.symm.trans refused
        · refine Bool.eq_false_iff.mpr fun some => ?_
          change (config.apply call).run tree.checkpoint = _ at applied
          rw [apply, run_bind_ok (RuleStep.run_get _), found] at applied
          dsimp only at applied
          rw [if_pos some] at applied
          obtain ⟨_, last, flattens, ends⟩ := run_bind_eq_ok.mp applied
          cases ends
          have opened := Tree.counted_of_commit (show tree.checkpoint.commit = tree.commit from rfl)
          have moved := flatten_moves (opened.filed filed) flattens
          exact absurd (Tree.revision_of_commit same) (Nat.ne_of_gt moved.more)
      · intro none
        refine Or.inr ⟨accepted, tree.checkpoint, ?_, rfl⟩
        change (config.apply call).run tree.checkpoint = _
        rw [apply, run_bind_ok (RuleStep.run_get _), found]
        dsimp only
        rw [if_neg (Bool.eq_false_iff.mp none)]
        rfl

end ExtractChainArguments

end Codemod
