import Codemod.Proofs.Catalog.Safe
import Codemod.Proofs.Edit.Counting

/-!
Rules that count what they do. On a tree whose slots are filed, a rule of the catalog that answers has
counted an edit or has changed nothing at all; the one that builds calls instead leaves its node in
place and hands a call to the walk. All nine rules are covered, and no node has to be held once.
-/

namespace Codemod

open Step

/-! ### Steps of rules that answered -/

namespace RuleStep

variable {α : Type} {tree after : Tree}

theorem lift_ok {edit : Edit α} {value : α}
    (ran : (liftM edit : RuleStep α).run tree = (.ok value, after)) :
    edit.run tree = (.ok value, after) := by
  have lifted : (liftM edit : RuleStep α) = RuleStep.ofEdit edit := rfl
  rw [lifted, run_ofEdit] at ran
  generalize edit.run tree = result at ran ⊢
  rcases result with ⟨(error | ⟨size, index⟩) | answer, edited⟩
  · cases ran
  · cases ran
  · cases ran
    rfl

theorem ofQuery_ok {query : Tree → Except Crash α} {value : α}
    (ran : (ofQuery query).run tree = (.ok value, after)) :
    query tree = .ok value ∧ tree = after := by
  rw [ofQuery, run_bind_ok (run_get tree)] at ran
  cases answers : query tree with
  | error crash =>
      rw [answers] at ran
      cases ran
  | ok answer =>
      rw [answers] at ran
      cases ran
      exact ⟨rfl, rfl⟩

theorem requireChild_ok {id child : NodeId} {slot : Slot} {expected : String}
    (ran : (requireChild id slot expected).run tree = (.ok child, after)) :
    tree.child? id slot = some child ∧ tree = after := by
  rw [requireChild, run_bind_ok (run_get tree)] at ran
  split at ran
  · next held =>
      cases ran
      exact ⟨held, rfl⟩
  · cases ran
  · cases ran

/-- Going through a list with steps that each count what they do. -/
theorem forM_counts {step : α → RuleStep Unit} (fits : Tree → α → Prop)
    (carries : ∀ {before after : Tree} {value}, before.Shifts after → fits before value →
      fits after value)
    (each : ∀ {value before after}, before.Filed → fits before value →
      (step value).run before = (.ok (), after) → before.Counted after)
    {values : List α} (fit : ∀ value ∈ values, fits tree value) (filed : tree.Filed)
    (ran : (values.forM step).run tree = (.ok (), after)) : tree.Counted after := by
  induction values generalizing tree with
  | nil =>
      cases ran
      exact Tree.counted_refl _
  | cons value rest ih =>
      obtain ⟨_, middle, first, others⟩ := run_bind_eq_ok.mp ran
      have counted := each filed (fit value List.mem_cons_self) first
      apply counted.trans
      apply ih _ (counted.filed filed) others
      intro other member
      exact carries counted.toShifts (fit other (List.mem_cons_of_mem _ member))

/-- A loop of edits goes through its list. -/
theorem for_ok {edit : α → Edit Unit} {values : List α} {done : PUnit}
    (ran : (forIn values PUnit.unit fun value _ => do
      (liftM (edit value) : RuleStep Unit)
      pure (ForInStep.yield PUnit.unit)).run tree = (.ok done, after)) :
    (values.forM fun value => (liftM (edit value) : RuleStep Unit)).run tree = (.ok (), after) := by
  induction values generalizing tree with
  | nil =>
      cases ran
      rfl
  | cons value rest ih =>
      rw [List.forIn_cons, bind_assoc] at ran
      obtain ⟨_, middle, first, others⟩ := run_bind_eq_ok.mp ran
      have unrolled : ((value :: rest).forM fun value => (liftM (edit value) : RuleStep Unit))
          = (liftM (edit value) : RuleStep Unit) >>= fun _ =>
            rest.forM fun value => (liftM (edit value) : RuleStep Unit) := rfl
      rw [unrolled, run_bind_ok first]
      exact ih others

end RuleStep

/-! ### What filed slots hold -/

namespace Tree

variable {tree after : Tree} {call id : NodeId}

theorem Filed.child (filed : tree.Filed) {slot : Slot} (held : tree.child? call slot = some id)
    {kind : Kind} (wants : slot.content? = some kind) : tree.kind? id = some kind :=
  filed.suits (child_of_child? held) kind wants

theorem Filed.argument (filed : tree.Filed) (member : id ∈ tree.arguments call) :
    tree.kind? id = some .argument := by
  obtain ⟨list, held, same⟩ := list_of_argument member
  rw [same] at member
  exact filed.suits (mem_childrenIn.mp member) .argument rfl

/-- Arguments that are removed one after the other. -/
theorem removals_count {ids : List NodeId} {done : PUnit} (filed : tree.Filed)
    (kinds : ∀ id ∈ ids, tree.kind? id = some .argument)
    (ran : (forIn ids PUnit.unit fun id _ => do
      (liftM (Edit.remove id) : RuleStep Unit)
      pure (ForInStep.yield PUnit.unit)).run tree = (.ok done, after)) : tree.Counted after := by
  apply RuleStep.forM_counts (fun tree id => tree.kind? id = some .argument)
    (fun shifts kind => shifts.kinds kind) _ kinds filed (RuleStep.for_ok ran)
  intro id before after _ kind removes
  exact (Edit.remove_moves kind rfl (RuleStep.lift_ok removes)).counted

theorem removals_move {ids : List NodeId} {done : PUnit} (filed : tree.Filed)
    (kinds : ∀ id ∈ ids, tree.kind? id = some .argument) (filled : ids ≠ [])
    (ran : (forIn ids PUnit.unit fun id _ => do
      (liftM (Edit.remove id) : RuleStep Unit)
      pure (ForInStep.yield PUnit.unit)).run tree = (.ok done, after)) : tree.Moved after := by
  obtain ⟨first, rest, rfl⟩ := List.exists_cons_of_ne_nil filled
  obtain ⟨kind, kinds⟩ := List.forall_mem_cons.mp kinds
  rw [List.forIn_cons, bind_assoc] at ran
  obtain ⟨_, middle, removes, goes⟩ := run_bind_eq_ok.mp ran
  have moved := Edit.remove_moves kind rfl (RuleStep.lift_ok removes)
  have later : ∀ id ∈ rest, middle.kind? id = some .argument :=
    fun id member => moved.kinds (kinds id member)
  exact moved.trans (removals_count (moved.filed filed) later goes).toShifts

end Tree

theorem Edit.renameCall_moves {tree after : Tree} {call : NodeId} {title newName : String}
    (spelled : tree.callName? call = some title) (differ : newName ≠ title)
    (ran : (renameCall call newName).run tree = (.ok (), after)) : tree.Moved after := by
  obtain ⟨kind, slot, callee, read, spells, held, shaped⟩ := Tree.callName?_eq_some spelled
  have chosen : (if tree.kind? call = some .functionCall then Slot.callee else .method) = slot := by
    rw [read]
    cases kind <;> cases spells <;> rfl
  unfold renameCall at ran
  rw [run_bind_ok (run_get tree)] at ran
  dsimp only at ran
  rw [chosen, held] at ran
  exact setName_moves shaped differ ran

/-! ### Rules -/

inductive Tree.Accounted (before : Tree) (node : NodeId) : Verdict → Tree → Prop
  | unchanged {after : Tree} (counted : before.Counted after) : Accounted before node .unchanged after
  | replaced {after : Tree} {new : NodeId} {kind : Kind} (shifts : before.Shifts after)
      (found : before.kind? node = some kind) (given : kind.replaceable)
      (call : after.kind? new = some .methodCall) : Accounted before node (.replaced new) after

-- On filed trees the rule counts what it does.
def Rule.Accounts (rule : Rule) : Prop :=
  ∀ {tree after : Tree} {node : NodeId} {context : Context} {verdict : Verdict}, tree.Filed →
    (rule.apply node context).run tree = (.ok verdict, after) → tree.Accounted node verdict after

/-! Rules that change names. -/

theorem RenameFunction.apply_ok {config : RenameFunction} {tree after : Tree} {call : NodeId}
    {verdict : Verdict} (ran : (config.apply call).run tree = (.ok verdict, after)) :
    verdict = .unchanged ∧ tree.Counted after := by
  rw [apply, run_bind_ok (RuleStep.run_get tree)] at ran
  cases found : config.target? tree call with
  | none =>
      rw [found] at ran
      cases ran
      exact ⟨rfl, Tree.counted_refl _⟩
  | some renamed =>
      rw [found] at ran
      obtain ⟨callee, middle, requires, goes⟩ := run_bind_eq_ok.mp ran
      obtain ⟨_, rfl⟩ := RuleStep.requireChild_ok requires
      obtain ⟨_, last, names, ends⟩ := run_bind_eq_ok.mp goes
      cases ends
      exact ⟨rfl, Edit.setName_counts (RuleStep.lift_ok names)⟩

theorem RenameFunction.accounts (config : RenameFunction) : config.rule.Accounts := by
  intro tree after call context verdict filed ran
  obtain ⟨rfl, counted⟩ := apply_ok ran
  exact .unchanged counted

theorem RenameMethod.apply_ok {config : RenameMethod} {tree after : Tree} {call : NodeId}
    {verdict : Verdict} (ran : (config.apply call).run tree = (.ok verdict, after)) :
    verdict = .unchanged ∧ tree.Counted after := by
  rw [apply, run_bind_ok (RuleStep.run_get tree)] at ran
  cases found : config.target? tree call with
  | none =>
      rw [found] at ran
      cases ran
      exact ⟨rfl, Tree.counted_refl _⟩
  | some renamed =>
      rw [found] at ran
      dsimp only at ran
      cases held : tree.child? call .method with
      | none =>
          rw [held] at ran
          cases ran
          exact ⟨rfl, Tree.counted_refl _⟩
      | some method =>
          rw [held] at ran
          obtain ⟨_, last, names, ends⟩ := run_bind_eq_ok.mp ran
          cases ends
          exact ⟨rfl, Edit.setName_counts (RuleStep.lift_ok names)⟩

theorem RenameMethod.accounts (config : RenameMethod) : config.rule.Accounts := by
  intro tree after call context verdict filed ran
  obtain ⟨rfl, counted⟩ := apply_ok ran
  exact .unchanged counted

theorem RenameType.apply_ok {config : RenameType} {tree after : Tree} {id : NodeId}
    {verdict : Verdict} (ran : (config.apply id).run tree = (.ok verdict, after)) :
    verdict = .unchanged ∧ tree.Counted after := by
  rw [apply, run_bind_ok (RuleStep.run_get tree)] at ran
  cases found : config.target? tree id with
  | none =>
      rw [found] at ran
      cases ran
      exact ⟨rfl, Tree.counted_refl _⟩
  | some renamed =>
      rw [found] at ran
      obtain ⟨_, last, names, ends⟩ := run_bind_eq_ok.mp ran
      cases ends
      exact ⟨rfl, Edit.setName_counts (RuleStep.lift_ok names)⟩

theorem RenameType.accounts (config : RenameType) : config.rule.Accounts := by
  intro tree after id context verdict filed ran
  obtain ⟨rfl, counted⟩ := apply_ok ran
  exact .unchanged counted

/-! Rules that take arguments away. -/

namespace RemoveArgument

theorem mem_of_argument? {config : RemoveArgument} {tree : Tree} {call argument : NodeId}
    (found : config.argument? tree call = .ok (some argument)) : argument ∈ tree.arguments call := by
  unfold argument? at found
  by_cases accepted : config.target.accepts tree call
  · rw [if_pos accepted] at found
    cases listed : (tree.arguments call)[config.position]? with
    | none =>
        rw [listed] at found
        cases found
    | some other =>
        have only : ∀ {keep : Prop} [Decidable keep],
            (if keep then some other else none) = some argument → other = argument :=
          fun given => Option.some.inj (Option.ite_none_right_eq_some.mp given).2
        rw [listed] at found
        have same : other = argument := by
          cases wanted : config.value with
          | none =>
              rw [wanted] at found
              exact only (Except.ok.inj found)
          | some expected =>
              rw [wanted] at found
              dsimp only at found
              cases passed : tree.positionalValue? call config.position with
              | none =>
                  rw [passed] at found
                  cases found
              | some value =>
                  rw [passed] at found
                  dsimp only at found
                  cases reads : hasValue tree value expected with
                  | error crash =>
                      rw [reads] at found
                      cases found
                  | ok matched =>
                      rw [reads] at found
                      exact only (Except.ok.inj found)
        exact same ▸ List.mem_of_getElem? listed
  · rw [if_neg accepted] at found
    cases found

theorem apply_moves {config : RemoveArgument} {tree after : Tree} {call argument : NodeId}
    {verdict : Verdict} (filed : tree.Filed) (answers : config.argument? tree call = .ok (some argument))
    (ran : (config.apply call).run tree = (.ok verdict, after)) :
    verdict = .unchanged ∧ tree.Moved after := by
  rw [apply, run_bind_ok (RuleStep.run_ofQuery answers)] at ran
  obtain ⟨_, last, removes, ends⟩ := run_bind_eq_ok.mp ran
  cases ends
  have kind := filed.argument (mem_of_argument? answers)
  exact ⟨rfl, Edit.remove_moves kind rfl (RuleStep.lift_ok removes)⟩

theorem accounts (config : RemoveArgument) : config.rule.Accounts := by
  intro tree after call context verdict filed ran
  change (config.apply call).run tree = _ at ran
  obtain ⟨found, middle, queries, goes⟩ := run_bind_eq_ok.mp ran
  obtain ⟨answers, rfl⟩ := RuleStep.ofQuery_ok queries
  cases found with
  | none =>
      cases goes
      exact .unchanged (Tree.counted_refl _)
  | some argument =>
      obtain ⟨rfl, moved⟩ := apply_moves filed answers ran
      exact .unchanged moved.counted

end RemoveArgument

namespace RenameMethodByArgument

theorem planFor_of_plan {config : RenameMethodByArgument} {tree : Tree} {call : NodeId} {planned : Plan}
    (found : config.plan tree call = .ok (some planned)) :
    ∃ newName, config.planFor tree call newName = some planned := by
  unfold plan at found
  by_cases accepted : (CallTarget.method config.method).accepts tree call
  · rw [if_pos accepted] at found
    cases named : config.newName tree call with
    | error crash =>
        rw [named] at found
        cases found
    | ok answer =>
        rw [named] at found
        obtain ⟨newName, _, given⟩ := Option.bind_eq_some_iff.mp (Except.ok.inj found)
        exact ⟨newName, given⟩
  · rw [if_neg accepted] at found
    cases found

/-- A plan that drops nothing gives the call another name. -/
theorem renames_of_plan {config : RenameMethodByArgument} {tree : Tree} {call : NodeId}
    {planned : Plan} (found : config.plan tree call = .ok (some planned))
    (none : planned.dropped = []) : ∃ title newName, tree.callName? call = some title
      ∧ newName ≠ title ∧ planned.rename = some newName := by
  obtain ⟨newName, given⟩ := planFor_of_plan found
  unfold planFor at given
  obtain ⟨needed, same⟩ := Option.ite_none_right_eq_some.mp given
  cases same
  dsimp only at none needed ⊢
  rw [none] at needed
  cases spelled : tree.callName? call with
  | none => simp [spelled] at needed
  | some title =>
      simp only [spelled, List.isEmpty_nil, Bool.not_true, Bool.or_false] at needed ⊢
      split at needed
      · cases needed
      · next differ => exact ⟨title, newName, rfl, Ne.symm differ, if_neg differ⟩

theorem mem_of_plan {config : RenameMethodByArgument} {tree : Tree} {call : NodeId} {planned : Plan}
    (found : config.plan tree call = .ok (some planned)) :
    ∀ argument ∈ planned.dropped, argument ∈ tree.arguments call := by
  obtain ⟨newName, given⟩ := planFor_of_plan found
  unfold planFor at given
  obtain ⟨_, same⟩ := Option.ite_none_right_eq_some.mp given
  cases same
  intro argument member
  dsimp only at member
  split at member
  · exact List.mem_of_mem_drop member
  · cases member

theorem apply_moves {config : RenameMethodByArgument} {tree after : Tree} {call : NodeId}
    {planned : Plan} {verdict : Verdict} (filed : tree.Filed)
    (answers : config.plan tree call = .ok (some planned))
    (ran : (config.apply call).run tree = (.ok verdict, after)) :
    verdict = .unchanged ∧ tree.Moved after := by
  rw [apply, run_bind_ok (RuleStep.run_ofQuery answers)] at ran
  obtain ⟨_, last, removes, renames⟩ := run_bind_eq_ok.mp ran
  have kinds : ∀ id ∈ planned.dropped, tree.kind? id = some .argument :=
    fun id member => filed.argument (mem_of_plan answers id member)
  have counted := Tree.removals_count filed kinds removes
  by_cases none : planned.dropped = []
  · -- Nothing is dropped, so there is a new name.
    obtain ⟨title, newName, spelled, differ, renamed⟩ := renames_of_plan answers none
    rw [none] at removes
    cases removes
    rw [renamed] at renames
    obtain ⟨_, ended, names, ends⟩ := run_bind_eq_ok.mp renames
    cases ends
    exact ⟨rfl, Edit.renameCall_moves spelled differ (RuleStep.lift_ok names)⟩
  · have moved := Tree.removals_move filed kinds none removes
    dsimp only at renames
    cases wanted : planned.rename with
    | none =>
        rw [wanted] at renames
        cases renames
        exact ⟨rfl, moved⟩
    | some title =>
        rw [wanted] at renames
        obtain ⟨_, ended, names, ends⟩ := run_bind_eq_ok.mp renames
        cases ends
        exact ⟨rfl, moved.trans (Edit.renameCall_counts (RuleStep.lift_ok names)).toShifts⟩

theorem accounts (config : RenameMethodByArgument) : config.rule.Accounts := by
  intro tree after call context verdict filed ran
  change (config.apply call).run tree = _ at ran
  obtain ⟨found, middle, queries, goes⟩ := run_bind_eq_ok.mp ran
  obtain ⟨answers, rfl⟩ := RuleStep.ofQuery_ok queries
  cases found with
  | none =>
      cases goes
      exact .unchanged (Tree.counted_refl _)
  | some planned =>
      obtain ⟨rfl, moved⟩ := apply_moves filed answers ran
      exact .unchanged moved.counted

end RenameMethodByArgument

/-! Rules that put what they build in the place of what was there. -/

namespace StringToClassConstant

/-- Only a literal stands for a string. -/
theorem kind_of_replacement {config : StringToClassConstant} {tree : Tree} {call value : NodeId}
    {symbols : Symbols} {constant : ClassConstant}
    (found : config.replacement? tree call symbols = .ok (some (value, constant))) :
    tree.kind? value = some .literal := by
  unfold replacement? at found
  by_cases accepted : config.target.accepts tree call
  · rw [if_pos accepted] at found
    cases passed : tree.positionalValue? call config.position with
    | none =>
        rw [passed] at found
        cases found
    | some other =>
        rw [passed] at found
        dsimp only at found
        cases reads : tree.stringValue other with
        | error crash =>
            rw [reads] at found
            cases found
        | ok text =>
            rw [reads] at found
            obtain ⟨chosen, named, same⟩ := Option.map_eq_some_iff.mp (Except.ok.inj found)
            cases same
            obtain ⟨spelled, rfl, _⟩ := Option.bind_eq_some_iff.mp named
            unfold Tree.stringValue at reads
            split at reads
            · next literal shaped => exact Tree.kind?_of_shape? shaped
            · cases reads
  · rw [if_neg accepted] at found
    cases found

theorem apply_moves {config : StringToClassConstant} {tree after : Tree} {call value : NodeId}
    {context : Context} {constant : ClassConstant} {verdict : Verdict} (filed : tree.Filed)
    (answers : config.replacement? tree call context.symbols = .ok (some (value, constant)))
    (ran : (config.apply call context).run tree = (.ok verdict, after)) :
    verdict = .unchanged ∧ tree.Moved after := by
  rw [apply, run_bind_ok (RuleStep.run_ofQuery answers)] at ran
  have literal := kind_of_replacement answers
  obtain ⟨fetch, built, builds, puts⟩ := run_bind_eq_ok.mp ran
  obtain ⟨_, last, replaces, ends⟩ := run_bind_eq_ok.mp puts
  cases ends
  have made := Edit.classConstFetch_makes (RuleStep.lift_ok builds)
  obtain ⟨link, puts⟩ := Edit.replace_ok (RuleStep.lift_ok replaces)
  have free : ∀ slot : Slot, slot.content? ≠ some .literal := by
    intro slot
    cases slot <;> decide
  exact ⟨rfl, Edit.replaceAt_made_moves filed literal rfl (Or.inr free) made puts⟩

theorem accounts (config : StringToClassConstant) : config.rule.Accounts := by
  intro tree after call context verdict filed ran
  change (config.apply call context).run tree = _ at ran
  obtain ⟨found, middle, queries, goes⟩ := run_bind_eq_ok.mp ran
  obtain ⟨answers, rfl⟩ := RuleStep.ofQuery_ok queries
  rcases found with _ | ⟨value, constant⟩
  · cases goes
    exact .unchanged (Tree.counted_refl _)
  · obtain ⟨rfl, moved⟩ := apply_moves filed answers ran
    exact .unchanged moved.counted

end StringToClassConstant

namespace ExtractChainArguments

theorem fill_shifts {value : Option NodeId} {id : NodeId} {tree after : Tree}
    (ran : (fill value).run tree = (.ok id, after)) : tree.Shifts after := by
  cases value with
  | none => exact (Edit.alloc_makes_plain rfl ran).toShifts
  | some value =>
      cases ran
      exact (Tree.counted_refl _).toShifts

theorem fills_shift {values : List (Option NodeId)} {ids : List NodeId} {tree after : Tree}
    (ran : (values.mapM fun value => (fill value : RuleStep NodeId)).run tree = (.ok ids, after)) :
    tree.Shifts after := by
  induction values generalizing tree ids with
  | nil =>
      cases ran
      exact (Tree.counted_refl _).toShifts
  | cons value rest ih =>
      rw [List.mapM_cons] at ran
      obtain ⟨first, middle, fills, goes⟩ := run_bind_eq_ok.mp ran
      obtain ⟨others, last, collects, ends⟩ := run_bind_eq_ok.mp goes
      cases ends
      exact (fill_shifts (RuleStep.lift_ok fills)).trans (ih collects)

theorem flatten_moves {config : ExtractChainArguments} {call : NodeId}
    {values : List (Option NodeId)} {tree after : Tree} (filed : tree.Filed)
    (ran : (config.flatten call values).run tree = (.ok (), after)) : tree.Moved after := by
  obtain ⟨filled, first, collects, requires⟩ := run_bind_eq_ok.mp ran
  obtain ⟨old, second, finds, builds⟩ := run_bind_eq_ok.mp requires
  obtain ⟨held, rfl⟩ := RuleStep.requireChild_ok finds
  obtain ⟨new, third, lists, replaces⟩ := run_bind_eq_ok.mp builds
  obtain ⟨_, fourth, puts, renames⟩ := run_bind_eq_ok.mp replaces
  have shifts := fills_shift collects
  have listed := (shifts.filed filed).child held rfl
  have made := Edit.argumentsOf_makes (RuleStep.lift_ok lists)
  have moved := Edit.replaceAt_made_moves (shifts.filed filed) listed rfl (Or.inl rfl) made
    (RuleStep.lift_ok puts)
  have filled := shifts.moved moved
  cases named : config.rename with
  | none =>
      rw [named] at renames
      cases renames
      exact filled
  | some title =>
      rw [named] at renames
      exact filled.trans (Edit.renameCall_counts (RuleStep.lift_ok renames)).toShifts

theorem accounts (config : ExtractChainArguments) : config.rule.Accounts := by
  intro tree after call context verdict filed ran
  change (config.apply call).run tree = _ at ran
  rw [apply, run_bind_ok (RuleStep.run_get tree)] at ran
  cases found : config.chain? tree call with
  | none =>
      rw [found] at ran
      cases ran
      exact .unchanged (Tree.counted_refl _)
  | some chain =>
      rw [found] at ran
      dsimp only at ran
      split at ran
      · obtain ⟨_, last, flattens, ends⟩ := run_bind_eq_ok.mp ran
        cases ends
        exact .unchanged (flatten_moves filed flattens).counted
      · cases ran
        exact .unchanged (Tree.counted_refl _)

end ExtractChainArguments

namespace WrapArguments

theorem wrapped_makes {config : WrapArguments} {values : List NodeId} {id : NodeId}
    {tree after : Tree} (ran : (config.wrapped values).run tree = (.ok id, after)) :
    tree.Made after .new id := by
  obtain ⟨list, middle, lists, builds⟩ := run_bind_eq_ok.mp ran
  have listed := Edit.argumentsOf_makes lists
  apply listed.toShifts.made
  apply Edit.newInstance_makes _ builds
  rintro _ ⟨⟩
  exact listed.kind

theorem wrapItem_moves {config : WrapArguments} {item : NodeId} {tree after : Tree}
    (filed : tree.Filed) (kind : tree.kind? item = some .arrayItem)
    (ran : (config.wrapItem item).run tree = (.ok (), after)) : tree.Moved after := by
  unfold wrapItem at ran
  rw [run_bind_ok (RuleStep.run_get tree)] at ran
  obtain ⟨value, first, requires, wraps⟩ := run_bind_eq_ok.mp ran
  obtain ⟨_, rfl⟩ := RuleStep.requireChild_ok requires
  obtain ⟨object, second, builds, adds⟩ := run_bind_eq_ok.mp wraps
  obtain ⟨new, third, makes, replaces⟩ := run_bind_eq_ok.mp adds
  rw [run_bind_ok (RuleStep.run_get third)] at replaces
  have wrapped := wrapped_makes (RuleStep.lift_ok builds)
  have made := wrapped.toShifts.made (Edit.alloc_makes_plain rfl (RuleStep.lift_ok makes))
  exact Edit.replaceAt_made_moves filed kind rfl (Or.inl rfl) made (RuleStep.lift_ok replaces)

theorem wrapValues_moves {config : WrapArguments} {call : NodeId} {values : List NodeId}
    {tree after : Tree} (filed : tree.Filed)
    (ran : (config.wrapValues call values).run tree = (.ok (), after)) : tree.Moved after := by
  obtain ⟨old, first, requires, wraps⟩ := run_bind_eq_ok.mp ran
  obtain ⟨held, rfl⟩ := RuleStep.requireChild_ok requires
  obtain ⟨object, second, builds, lists⟩ := run_bind_eq_ok.mp wraps
  obtain ⟨new, third, makes, replaces⟩ := run_bind_eq_ok.mp lists
  have wrapped := wrapped_makes (RuleStep.lift_ok builds)
  have made := wrapped.toShifts.made (Edit.argumentsOf_makes (RuleStep.lift_ok makes))
  exact Edit.replaceAt_made_moves filed (filed.child held rfl) rfl (Or.inl rfl) made
    (RuleStep.lift_ok replaces)

/-- What is wrapped one by one are items of an array. -/
theorem kind_of_items {config : WrapArguments} {tree : Tree} {call item : NodeId}
    {listed : List NodeId} (found : config.contents tree call = .items listed)
    (member : item ∈ listed) : tree.kind? item = some .arrayItem := by
  have wrappable : ∀ {all : List NodeId},
      item ∈ all.filter (config.needsWrap tree) → tree.kind? item = some .arrayItem := by
    intro all among
    have needed := (List.mem_filter.mp among).2
    unfold needsWrap at needed
    split at needed
    · next shaped => exact Tree.kind?_of_shape? shaped
    · cases needed
  unfold contents at found
  split at found
  · cases found
  · split at found
    · split at found
      · cases found
      · cases found
        exact wrappable member
    · split at found <;> cases found

theorem contents_of_plan {config : WrapArguments} {tree : Tree} {call : NodeId} {planned : Plan}
    (found : config.plan tree call = some planned) :
    planned.contents = config.contents tree call := by
  obtain ⟨title, _, named⟩ := Option.bind_eq_some_iff.mp found
  obtain ⟨newName, _, given⟩ := Option.bind_eq_some_iff.mp named
  obtain ⟨_, same⟩ := Option.ite_none_right_eq_some.mp given
  cases same
  rfl

/-- The new name that a plan has for a call is another than it spells, and a plan that has nothing to
wrap has one. -/
theorem renames_of_plan {config : WrapArguments} {tree : Tree} {call : NodeId} {planned : Plan}
    (found : config.plan tree call = some planned) :
    (∀ newName, planned.rename = some newName →
        ∃ title, tree.callName? call = some title ∧ newName ≠ title)
      ∧ (planned.contents = .nothing → planned.rename.isSome) := by
  obtain ⟨title, spelled, named⟩ := Option.bind_eq_some_iff.mp found
  obtain ⟨newName, _, given⟩ := Option.bind_eq_some_iff.mp named
  obtain ⟨needed, same⟩ := Option.ite_none_right_eq_some.mp given
  cases same
  constructor
  · intro other renamed
    obtain ⟨⟨_, differs⟩, same⟩ := Option.ite_none_right_eq_some.mp renamed
    cases same
    exact ⟨title, spelled, differs⟩
  · exact fun nothing => needed.resolve_right fun some => some nothing

theorem items_ne_nil {config : WrapArguments} {tree : Tree} {call : NodeId} {listed : List NodeId}
    (found : config.contents tree call = .items listed) : listed ≠ [] := by
  unfold contents at found
  split at found
  · cases found
  · split at found
    · split at found
      · cases found
      · next filled =>
          cases found
          exact filled
    · split at found <;> cases found

theorem wrapItems_move {config : WrapArguments} {items : List NodeId} {tree after : Tree}
    (filed : tree.Filed) (kinds : ∀ item ∈ items, tree.kind? item = some .arrayItem)
    (filled : items ≠ []) (ran : (items.forM config.wrapItem).run tree = (.ok (), after)) :
    tree.Moved after := by
  obtain ⟨first, rest, rfl⟩ := List.exists_cons_of_ne_nil filled
  obtain ⟨kind, kinds⟩ := List.forall_mem_cons.mp kinds
  obtain ⟨_, middle, wraps, goes⟩ := run_bind_eq_ok.mp ran
  have moved := wrapItem_moves filed kind wraps
  have later : ∀ item ∈ rest, middle.kind? item = some .arrayItem :=
    fun item member => moved.kinds (kinds item member)
  have counted := RuleStep.forM_counts (fun tree item => tree.kind? item = some .arrayItem)
    (fun shifts kind => shifts.kinds kind)
    (fun filed kind ran => (wrapItem_moves filed kind ran).counted) later (moved.filed filed) goes
  exact moved.trans counted.toShifts

def filling (config : WrapArguments) (call : NodeId) : Contents → RuleStep Verdict
  | .nothing => pure .unchanged
  | .items items => do
      items.forM config.wrapItem
      return .unchanged
  | .values values => do
      config.wrapValues call values
      return .unchanged

theorem filling_told {config : WrapArguments} {call : NodeId} {planned : Plan}
    {tree before after : Tree} {verdict : Verdict} (filed : tree.Filed)
    (found : config.plan tree call = some planned) (shifts : tree.Shifts before)
    (ran : (config.filling call planned.contents).run before = (.ok verdict, after)) :
    verdict = .unchanged ∧ (planned.contents = .nothing ∧ after = before ∨ before.Moved after) := by
  have filedNow := shifts.filed filed
  cases wanted : planned.contents with
  | nothing =>
      rw [wanted] at ran
      cases ran
      exact ⟨rfl, Or.inl ⟨rfl, rfl⟩⟩
  | «items» listed =>
      rw [wanted] at ran
      obtain ⟨_, last, wraps, ends⟩ := run_bind_eq_ok.mp ran
      cases ends
      have reads := (contents_of_plan found).symm.trans wanted
      have kinds : ∀ item ∈ listed, before.kind? item = some .arrayItem :=
        fun item member => shifts.kinds (kind_of_items reads member)
      exact ⟨rfl, Or.inr (wrapItems_move filedNow kinds (items_ne_nil reads) wraps)⟩
  | «values» passed =>
      rw [wanted] at ran
      obtain ⟨_, last, wraps, ends⟩ := run_bind_eq_ok.mp ran
      cases ends
      exact ⟨rfl, Or.inr (wrapValues_moves filedNow wraps)⟩

theorem apply_moves {config : WrapArguments} {tree after : Tree} {call : NodeId} {planned : Plan}
    {verdict : Verdict} (filed : tree.Filed) (kind : tree.kind? call = some .methodCall)
    (found : config.plan tree call = some planned)
    (ran : (config.apply call).run tree = (.ok verdict, after)) :
    verdict = .unchanged ∧ tree.Moved after := by
  rw [apply, run_bind_ok (RuleStep.run_get tree), found] at ran
  dsimp only at ran
  cases renamed : planned.rename with
  | none =>
      rw [renamed] at ran
      obtain ⟨rfl, told⟩ := filling_told filed found (Tree.counted_refl _).toShifts ran
      refine ⟨rfl, told.resolve_left ?_⟩
      rintro ⟨nothing, _⟩
      have named := (renames_of_plan found).2 nothing
      rw [renamed] at named
      cases named
  | some newName =>
      obtain ⟨title, spelled, differ⟩ := (renames_of_plan found).1 newName renamed
      obtain ⟨other, slot, method, read, spells, held, shaped⟩ := Tree.callName?_eq_some spelled
      cases kind.symm.trans read
      cases spells
      rw [renamed] at ran
      dsimp only at ran
      rw [held] at ran
      obtain ⟨_, middle, names, goes⟩ := run_bind_eq_ok.mp ran
      have moved := Edit.setName_moves shaped differ (RuleStep.lift_ok names)
      obtain ⟨rfl, ⟨_, rfl⟩ | further⟩ := filling_told filed found moved.toShifts goes
      · exact ⟨rfl, moved⟩
      · exact ⟨rfl, moved.trans further.toShifts⟩

theorem accounts (config : WrapArguments) : config.rule.Accounts := by
  intro tree after call context verdict filed ran
  change (config.apply call).run tree = _ at ran
  rw [apply, run_bind_ok (RuleStep.run_get tree)] at ran
  cases found : config.plan tree call with
  | none =>
      rw [found] at ran
      cases ran
      exact .unchanged (Tree.counted_refl _)
  | some planned =>
      have filled : ∀ {before : Tree}, tree.Counted before →
          (config.filling call planned.contents).run before = (.ok verdict, after) →
            tree.Accounted call verdict after := by
        intro before counted goes
        obtain ⟨rfl, ⟨_, rfl⟩ | moved⟩ := filling_told filed found counted.toShifts goes
        · exact .unchanged counted
        · exact .unchanged (counted.toShifts.moved moved).counted
      rw [found] at ran
      dsimp only at ran
      cases renamed : planned.rename with
      | none =>
          rw [renamed] at ran
          exact filled (Tree.counted_refl _) ran
      | some newName =>
          rw [renamed] at ran
          dsimp only at ran
          cases held : tree.child? call .method with
          | none =>
              rw [held] at ran
              exact filled (Tree.counted_refl _) ran
          | some method =>
              rw [held] at ran
              obtain ⟨_, middle, names, goes⟩ := run_bind_eq_ok.mp ran
              exact filled (Edit.setName_counts (RuleStep.lift_ok names)) goes

end WrapArguments

namespace NewToBuilder

theorem kind_of_target {config : NewToBuilder} {tree : Tree} {id creation : NodeId}
    (found : config.target? tree id = some creation) :
    ∃ kind, tree.kind? id = some kind ∧ kind.replaceable := by
  unfold target? at found
  split at found
  · next kind => exact ⟨_, kind, rfl⟩
  · next kind => exact ⟨_, kind, rfl⟩
  · cases found

theorem accounts (config : NewToBuilder) : config.rule.Accounts := by
  intro tree after id context verdict filed ran
  change (config.apply id).run tree = _ at ran
  rw [apply, run_bind_ok (RuleStep.run_get tree)] at ran
  cases found : config.target? tree id with
  | none =>
      rw [found] at ran
      cases ran
      exact .unchanged (Tree.counted_refl _)
  | some creation =>
      rw [found] at ran
      obtain ⟨className, first, requires, goes⟩ := run_bind_eq_ok.mp ran
      obtain ⟨_, rfl⟩ := RuleStep.requireChild_ok requires
      split at goes
      · next early extra list passed held =>
          obtain ⟨_, second, removes, builds⟩ := run_bind_eq_ok.mp goes
          obtain ⟨object, third, creates, calls⟩ := run_bind_eq_ok.mp builds
          obtain ⟨new, fourth, makes, ends⟩ := run_bind_eq_ok.mp calls
          cases ends
          have kinds : ∀ argument ∈ extra, tree.kind? argument = some .argument := by
            intro argument member
            exact filed.argument (passed ▸ List.mem_cons_of_mem early member)
          have removed := Tree.removals_count filed kinds removes
          have created := Edit.newInstance_makes (by rintro _ ⟨⟩) (RuleStep.lift_ok creates)
          have shifts := removed.toShifts.trans created.toShifts
          have listed := shifts.kinds (filed.child held rfl)
          have made := Edit.methodCall_makes listed (RuleStep.lift_ok makes)
          obtain ⟨kind, read, given⟩ := kind_of_target found
          exact .replaced (shifts.trans made.toShifts) read given made.kind
      · obtain ⟨_, last, names, ends⟩ := run_bind_eq_ok.mp goes
        cases ends
        exact .unchanged (Edit.setName_counts (RuleStep.lift_ok names))

end NewToBuilder

namespace Catalog

theorem accounts_of_makes {id : String} {rule : Rule} (makes : Makes id rule) : rule.Accounts := by
  cases makes with
  | renameFunction config => exact config.accounts
  | renameMethod config => exact config.accounts
  | newToBuilder config => exact config.accounts
  | renameType config => exact config.accounts
  | wrapArguments config => exact config.accounts
  | removeArgument config => exact config.accounts
  | stringToClassConstant config => exact config.accounts
  | renameMethodByArgument config => exact config.accounts
  | extractChainArguments config => exact config.accounts

theorem accounts_of_build {specs : List RuleSpec} {rules : List Rule}
    (built : build specs = .ok rules) : ∀ rule ∈ rules, rule.Accounts := by
  intro rule member
  obtain ⟨spec, _, makes⟩ := makes_of_build built rule member
  exact accounts_of_makes makes

end Catalog

end Codemod
