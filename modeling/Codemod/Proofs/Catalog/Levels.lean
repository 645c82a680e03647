import Codemod.Proofs.Catalog.Safe
import Codemod.Proofs.Edit.Spawning

/-!
Rules add nodes below the node they are offered. A rule about calls builds names, lists and values; one
that makes calls of creations adds the call and what it is made of. Only the rule that wraps arguments
adds creations from calls, which is below if no rule makes calls of them again. The rule that flattens
chains is no exception here, and no rule has to succeed.
-/

namespace Codemod

open Step

/-- A relation of trees holds along the step, however it ends, and what it answers is as required. -/
def RuleStep.Along {α : Type} (R : Tree → Tree → Prop) (required : α → Prop) (step : RuleStep α) :
    Prop :=
  ∀ tree, R tree (step.run tree).2 ∧ ∀ value, (step.run tree).1 = .ok value → required value

namespace Ordered

variable {α β : Type} {R : Tree → Tree → Prop} {required : α → Prop} {wanted : β → Prop}

theorem answer (ordered : Ordered R) {value : α} (fits : required value) :
    RuleStep.Along R required (Pure.pure value) := by
  intro tree
  refine ⟨ordered.refl tree, ?_⟩
  rintro other ⟨⟩
  exact fits

theorem follow (ordered : Ordered R) {step : RuleStep α} {next : α → RuleStep β}
    (first : step.Along R required) (second : ∀ value, required value → (next value).Along R wanted) :
    RuleStep.Along R wanted (step >>= next) := by
  intro tree
  obtain ⟨along, fits⟩ := first tree
  rw [run_bind]
  generalize step.run tree = result at along fits
  rcases result with ⟨failure | value, after⟩
  · exact ⟨along, nofun⟩
  · obtain ⟨further, ends⟩ := second value (fits value rfl) after
    exact ⟨ordered.trans along further, ends⟩

theorem look (ordered : Ordered R) :
    RuleStep.Along R (fun _ => True) (get : RuleStep Tree) :=
  fun tree => ⟨ordered.refl tree, fun _ _ => trivial⟩

theorem lift {edit : Edit α} (along : edit.Along R) :
    RuleStep.Along R (fun _ => True) (liftM edit : RuleStep α) := by
  intro tree
  refine ⟨?_, fun _ _ => trivial⟩
  have lifted : (liftM edit : RuleStep α) = RuleStep.ofEdit edit := rfl
  have edits := along tree
  rw [lifted, RuleStep.run_ofEdit]
  generalize edit.run tree = result at edits
  rcases result with ⟨(error | ⟨size, index⟩) | value, after⟩ <;> exact edits

theorem ofQuery (ordered : Ordered R) (query : Tree → Except Crash α) :
    RuleStep.Along R (fun _ => True) (RuleStep.ofQuery query) := by
  apply ordered.follow ordered.look
  intro tree _
  cases query tree with
  | ok value => exact ordered.answer trivial
  | error crash => exact fun tree => ⟨ordered.refl tree, nofun⟩

theorem requireChild (ordered : Ordered R) (id : NodeId) (slot : Slot) (expected : String) :
    RuleStep.Along R (fun _ => True) (RuleStep.requireChild id slot expected) := by
  apply ordered.follow ordered.look
  intro tree _
  split
  · exact ordered.answer trivial
  · exact fun tree => ⟨ordered.refl tree, nofun⟩
  · exact fun tree => ⟨ordered.refl tree, nofun⟩

theorem each (ordered : Ordered R) {step : α → RuleStep Unit}
    (steps : ∀ value, (step value).Along R fun _ => True) (values : List α) :
    RuleStep.Along R (fun _ => True) (values.forM step) := by
  induction values with
  | nil => exact ordered.answer trivial
  | cons value rest ih => exact ordered.follow (steps value) fun _ _ => ih

theorem collect (ordered : Ordered R) {step : α → RuleStep β}
    (steps : ∀ value, (step value).Along R fun _ => True) (values : List α) :
    RuleStep.Along R (fun _ => True) (values.mapM step) := by
  induction values with
  | nil => exact ordered.answer trivial
  | cons value rest ih =>
      rw [List.mapM_cons]
      exact ordered.follow (steps value) fun _ _ =>
        ordered.follow ih fun _ _ => ordered.answer trivial

/-- Going through a list with edits. -/
theorem loop (ordered : Ordered R) {edit : α → Edit Unit} (steps : ∀ value, (edit value).Along R)
    (values : List α) :
    RuleStep.Along R (fun _ => True) (forIn values PUnit.unit fun value _ => do
      (liftM (edit value) : RuleStep Unit)
      Pure.pure (ForInStep.yield PUnit.unit)) := by
  induction values with
  | nil => exact ordered.answer trivial
  | cons value rest ih =>
      rw [List.forIn_cons, bind_assoc]
      exact ordered.follow (lift (steps value)) fun _ _ => ih

-- Steps of an edit that change nothing.

theorem read (ordered : Ordered R) (id : NodeId) : (Edit.node id).Along R := by
  intro tree
  rcases Edit.run_node id tree with ⟨held, _, reads⟩ | fails
  · rw [reads]
    exact ordered.refl tree
  · rw [fails]
    exact ordered.refl tree

theorem lookUp (ordered : Ordered R) : Edit.Along R (get : Edit Tree) :=
  ordered.refl

end Ordered

namespace Edit

variable {building : Bool} {limit : Nat}

theorem remove_ventures (id : NodeId) : (remove id).Along (Tree.Ventured building limit) := by
  have ordered := Tree.ventured_ordered building limit
  exact ordered.bind (ordered.read id) fun held => removeAt_ventures held.parent id

theorem replace_ventures (old new : NodeId) :
    (replace old new).Along (Tree.Ventured building limit) := by
  have ordered := Tree.ventured_ordered building limit
  exact ordered.bind (ordered.read old) fun held => replaceAt_ventures held.parent old new

theorem renameCall_ventures (call : NodeId) (title : String) :
    (renameCall call title).Along (Tree.Ventured building limit) := by
  have ordered := Tree.ventured_ordered building limit
  apply ordered.bind ordered.lookUp
  intro tree
  dsimp only
  split
  · exact setName_ventures _ title
  · exact ordered.pure ()

theorem name_ventures (positive : 0 < limit) (value : String) :
    (name value).Along (Tree.Ventured building limit) :=
  alloc_ventures positive

theorem argument_ventures (positive : 0 < limit) (value : NodeId) :
    (argument value).Along (Tree.Ventured building limit) :=
  alloc_ventures positive

theorem argumentList_ventures (positive : 0 < limit) (arguments : List NodeId) :
    (argumentList arguments).Along (Tree.Ventured building limit) :=
  alloc_ventures positive

theorem arrayItem_ventures (positive : 0 < limit) (key : Option NodeId) (value : NodeId) :
    (arrayItem key value).Along (Tree.Ventured building limit) :=
  alloc_ventures positive

theorem argumentsOf_ventures (positive : 0 < limit) (values : List NodeId) :
    (argumentsOf values).Along (Tree.Ventured building limit) := by
  have ordered := Tree.ventured_ordered building limit
  exact ordered.bind (ordered.mapM (argument_ventures positive) values)
    (argumentList_ventures positive)

theorem classConstFetch_ventures (positive : 0 < limit) (className constant : String) :
    (classConstFetch className constant).Along (Tree.Ventured building limit) := by
  have ordered := Tree.ventured_ordered building limit
  exact ordered.bind (name_ventures positive className) fun _ =>
    ordered.bind (name_ventures positive constant) fun _ => alloc_ventures positive

theorem newInstance_ventures {arguments : Option NodeId} (positive : 0 < limit)
    (low : ∀ name, (Shape.new name arguments).level building < limit) (className : String) :
    (newInstance className arguments).Along (Tree.Ventured building limit) := by
  have ordered := Tree.ventured_ordered building limit
  exact ordered.bind (name_ventures positive className) fun name => alloc_ventures (low name)

theorem methodCall_ventures (high : 1 < limit) (object : NodeId) (method : String)
    (arguments : NodeId) :
    (methodCall object method arguments).Along (Tree.Ventured building limit) := by
  have ordered := Tree.ventured_ordered building limit
  exact ordered.bind (name_ventures (Nat.lt_of_succ_lt high) method) fun _ => alloc_ventures high

end Edit

/-- A step at a node ended, well or not, and left no more to do at the level of the node and above.
If another node takes its place, that one stands no higher. -/
def Tree.Lessens (building : Bool) (tree : Tree) (node : NodeId)
    (result : Except Failure Verdict × Tree) : Prop :=
  tree.Ventured building (tree.level building node) result.2
    ∧ ∀ verdict, result.1 = .ok verdict → verdict = .unchanged
      ∨ ∃ new, verdict = .replaced new
        ∧ result.2.level building new ≤ tree.level building node

theorem Tree.lessens_of_along {building : Bool} {tree : Tree} {node : NodeId}
    {step : RuleStep Verdict}
    (along : step.Along (Tree.Ventured building (tree.level building node)) (· = .unchanged)) :
    tree.Lessens building node (step.run tree) :=
  ⟨(along tree).1, fun verdict answered => Or.inl ((along tree).2 verdict answered)⟩

/-- From the top level any replacement goes no higher. -/
theorem Tree.lessens_of_top {building : Bool} {tree : Tree} {node : NodeId}
    {step : RuleStep Verdict} (top : tree.level building node = 2)
    (along : step.Along (Tree.Ventured building (tree.level building node))
      fun verdict => verdict = .unchanged ∨ ∃ new, verdict = .replaced new) :
    tree.Lessens building node (step.run tree) := by
  obtain ⟨ventured, told⟩ := along tree
  refine ⟨ventured, ?_⟩
  intro verdict answered
  rcases told verdict answered with same | ⟨new, replaced⟩
  · exact Or.inl same
  · refine Or.inr ⟨new, replaced, ?_⟩
    rw [top]
    exact Tree.level_le_two building _ new

def Rule.Lowers (building : Bool) (rule : Rule) : Prop :=
  ∀ (tree : Tree) (node : NodeId), (tree.kind? node).any rule.kinds.contains → ∀ context,
    tree.Lessens building node ((rule.apply node context).run tree)

theorem Tree.level_of_call {building : Bool} {tree : Tree} {call : NodeId} {kinds : List Kind}
    (offered : (tree.kind? call).any kinds.contains) (calls : ∀ kind ∈ kinds, kind ∈ CallTarget.kinds) :
    tree.level building call = 1 := by
  cases found : tree.shape? call with
  | none => simp [kind?, found] at offered
  | some shape =>
      have called := calls shape.kind (by simpa [kind?, found] using offered)
      rw [level_of_shape? found]
      cases shape <;> first | rfl | simp [Shape.kind, CallTarget.kinds] at called

section

variable {building : Bool}

theorem RenameFunction.lowers (config : RenameFunction) : config.rule.Lowers building := by
  intro tree call _ context
  apply Tree.lessens_of_along
  have ordered := Tree.ventured_ordered building (tree.level building call)
  change RuleStep.Along _ _ (config.apply call)
  unfold RenameFunction.apply
  apply ordered.follow ordered.look
  intro now _
  cases config.target? now call with
  | none => exact ordered.answer rfl
  | some renamed =>
      apply ordered.follow (ordered.requireChild call .callee _)
      intro callee _
      exact ordered.follow (Ordered.lift (Edit.setName_ventures callee renamed))
        fun _ _ => ordered.answer rfl

theorem RenameMethod.lowers (config : RenameMethod) : config.rule.Lowers building := by
  intro tree call _ context
  apply Tree.lessens_of_along
  have ordered := Tree.ventured_ordered building (tree.level building call)
  change RuleStep.Along _ _ (config.apply call)
  unfold RenameMethod.apply
  apply ordered.follow ordered.look
  intro now _
  cases config.target? now call with
  | none => exact ordered.answer rfl
  | some renamed =>
      dsimp only
      cases now.child? call .method with
      | none => exact ordered.answer rfl
      | some method =>
          exact ordered.follow (Ordered.lift (Edit.setName_ventures method renamed))
            fun _ _ => ordered.answer rfl

theorem RenameType.lowers (config : RenameType) : config.rule.Lowers building := by
  intro tree id _ context
  apply Tree.lessens_of_along
  have ordered := Tree.ventured_ordered building (tree.level building id)
  change RuleStep.Along _ _ (config.apply id)
  unfold RenameType.apply
  apply ordered.follow ordered.look
  intro now _
  cases config.target? now id with
  | none => exact ordered.answer rfl
  | some renamed =>
      exact ordered.follow (Ordered.lift (Edit.setName_ventures id renamed))
        fun _ _ => ordered.answer rfl

theorem RemoveArgument.lowers (config : RemoveArgument) : config.rule.Lowers building := by
  intro tree call _ context
  apply Tree.lessens_of_along
  have ordered := Tree.ventured_ordered building (tree.level building call)
  change RuleStep.Along _ _ (config.apply call)
  unfold RemoveArgument.apply
  apply ordered.follow (ordered.ofQuery _)
  rintro (_ | argument) _
  · exact ordered.answer rfl
  · exact ordered.follow (Ordered.lift (Edit.remove_ventures argument))
      fun _ _ => ordered.answer rfl

theorem RenameMethodByArgument.lowers (config : RenameMethodByArgument) :
    config.rule.Lowers building := by
  intro tree call _ context
  apply Tree.lessens_of_along
  have ordered := Tree.ventured_ordered building (tree.level building call)
  change RuleStep.Along _ _ (config.apply call)
  unfold RenameMethodByArgument.apply
  apply ordered.follow (ordered.ofQuery _)
  rintro (_ | plan) _
  · exact ordered.answer rfl
  · apply ordered.follow (ordered.loop Edit.remove_ventures plan.dropped)
    intro _ _
    cases plan.rename with
    | none => exact ordered.answer rfl
    | some title =>
        exact ordered.follow (Ordered.lift (Edit.renameCall_ventures call title))
          fun _ _ => ordered.answer rfl

theorem StringToClassConstant.lowers (config : StringToClassConstant) :
    config.rule.Lowers building := by
  intro tree call offered context
  apply Tree.lessens_of_along
  have ordered := Tree.ventured_ordered building (tree.level building call)
  have positive : 0 < tree.level building call := by
    rw [Tree.level_of_call offered (by simp [rule, CallTarget.kinds])]
    omega
  change RuleStep.Along _ _ (config.apply call context)
  unfold StringToClassConstant.apply
  apply ordered.follow (ordered.ofQuery _)
  rintro (_ | ⟨value, constant⟩) _
  · exact ordered.answer rfl
  · apply ordered.follow (Ordered.lift (Edit.classConstFetch_ventures positive _ _))
    intro fetch _
    exact ordered.follow (Ordered.lift (Edit.replace_ventures value fetch))
      fun _ _ => ordered.answer rfl

namespace ExtractChainArguments

theorem fill_ventures {limit : Nat} (positive : 0 < limit) (value : Option NodeId) :
    (fill value).Along (Tree.Ventured building limit) := by
  cases value with
  | none => exact Edit.alloc_ventures positive
  | some value => exact (Tree.ventured_ordered building limit).pure value

theorem flatten_along (config : ExtractChainArguments) {limit : Nat} (positive : 0 < limit)
    (call : NodeId) (values : List (Option NodeId)) :
    (config.flatten call values).Along (Tree.Ventured building limit) fun _ => True := by
  have ordered := Tree.ventured_ordered building limit
  unfold flatten
  apply ordered.follow
    (ordered.collect (fun value => Ordered.lift (fill_ventures positive value)) _)
  intro filled _
  apply ordered.follow (ordered.requireChild call .arguments _)
  intro old _
  apply ordered.follow (Ordered.lift (Edit.argumentsOf_ventures positive filled))
  intro new _
  apply ordered.follow (Ordered.lift (Edit.replaceAt_ventures _ old new))
  intro _ _
  cases config.rename with
  | none => exact ordered.answer trivial
  | some title => exact Ordered.lift (Edit.renameCall_ventures call title)

theorem lowers (config : ExtractChainArguments) : config.rule.Lowers building := by
  intro tree call offered context
  apply Tree.lessens_of_along
  have ordered := Tree.ventured_ordered building (tree.level building call)
  have positive : 0 < tree.level building call := by
    rw [Tree.level_of_call offered (by simp [rule, CallTarget.kinds])]
    omega
  change RuleStep.Along _ _ (config.apply call)
  unfold ExtractChainArguments.apply
  apply ordered.follow ordered.look
  intro now _
  cases config.chain? now call with
  | none => exact ordered.answer rfl
  | some chain =>
      dsimp only
      split
      · exact ordered.follow (config.flatten_along positive call _) fun _ _ => ordered.answer rfl
      · exact ordered.answer rfl

end ExtractChainArguments

end

-- Where no rule makes calls of creations, arguments can be wrapped in creations.

namespace WrapArguments

theorem wrapped_ventures (config : WrapArguments) {limit : Nat} (positive : 0 < limit)
    (values : List NodeId) : (config.wrapped values).Along (Tree.Ventured false limit) := by
  have ordered := Tree.ventured_ordered false limit
  apply ordered.bind (Edit.argumentsOf_ventures positive values)
  intro arguments
  have low : ∀ name, (Shape.new name (some arguments)).level false < limit := fun _ => positive
  exact Edit.newInstance_ventures positive low config.className

theorem wrapItem_along (config : WrapArguments) {limit : Nat} (positive : 0 < limit) (item : NodeId) :
    (config.wrapItem item).Along (Tree.Ventured false limit) fun _ => True := by
  have ordered := Tree.ventured_ordered false limit
  unfold wrapItem
  apply ordered.follow ordered.look
  intro now _
  apply ordered.follow (ordered.requireChild item .value _)
  intro value _
  apply ordered.follow (Ordered.lift (config.wrapped_ventures positive _))
  intro object _
  apply ordered.follow (Ordered.lift (Edit.arrayItem_ventures positive none object))
  intro new _
  apply ordered.follow ordered.look
  intro later _
  exact Ordered.lift (Edit.replaceAt_ventures (later.parent? item) item new)

theorem wrapValues_along (config : WrapArguments) {limit : Nat} (positive : 0 < limit)
    (call : NodeId) (values : List NodeId) :
    (config.wrapValues call values).Along (Tree.Ventured false limit) fun _ => True := by
  have ordered := Tree.ventured_ordered false limit
  unfold wrapValues
  apply ordered.follow (ordered.requireChild call .arguments _)
  intro old _
  apply ordered.follow (Ordered.lift (config.wrapped_ventures positive values))
  intro object _
  apply ordered.follow (Ordered.lift (Edit.argumentsOf_ventures positive [object]))
  intro new _
  exact Ordered.lift (Edit.replaceAt_ventures (some ⟨call, .arguments⟩) old new)

/-- The arguments are filled in, whatever there is to wrap. -/
theorem filling_along (config : WrapArguments) {limit : Nat} (positive : 0 < limit) (call : NodeId)
    (contents : Contents) :
    RuleStep.Along (Tree.Ventured false limit) (· = .unchanged)
      (match contents with
        | .nothing => pure Verdict.unchanged
        | .items items => do
            items.forM config.wrapItem
            pure Verdict.unchanged
        | .values values => do
            config.wrapValues call values
            pure Verdict.unchanged) := by
  have ordered := Tree.ventured_ordered false limit
  cases contents with
  | nothing => exact ordered.answer rfl
  | «items» left =>
      exact ordered.follow (ordered.each (config.wrapItem_along positive) left)
        fun _ _ => ordered.answer rfl
  | «values» passed =>
      exact ordered.follow (config.wrapValues_along positive call passed)
        fun _ _ => ordered.answer rfl

theorem apply_along (config : WrapArguments) {limit : Nat} (positive : 0 < limit) (call : NodeId) :
    RuleStep.Along (Tree.Ventured false limit) (· = .unchanged) (config.apply call) := by
  have ordered := Tree.ventured_ordered false limit
  unfold WrapArguments.apply
  apply ordered.follow ordered.look
  intro now _
  cases config.plan now call with
  | none => exact ordered.answer rfl
  | some plan =>
      -- The name is changed or not, and then the arguments are filled in.
      have fills := config.filling_along positive call plan.contents
      dsimp only
      cases plan.rename with
      | none => exact fills
      | some title =>
          dsimp only
          cases now.child? call .method with
          | none => exact fills
          | some method =>
              exact ordered.follow (Ordered.lift (Edit.setName_ventures method title))
                fun _ _ => fills

theorem lowers (config : WrapArguments) : config.rule.Lowers false := by
  intro tree call offered context
  apply Tree.lessens_of_along
  apply config.apply_along
  rw [Tree.level_of_call offered (by simp [rule, CallTarget.kinds])]
  omega

end WrapArguments

-- Creations stand above the calls that take their place.

namespace NewToBuilder

theorem level_of_target {config : NewToBuilder} {tree : Tree} {id creation list : NodeId}
    (found : config.target? tree id = some creation)
    (held : tree.child? creation .constructorArguments = some list) : tree.level true id = 2 := by
  cases shaped : tree.shape? id with
  | none => simp [target?, Tree.kind?, shaped] at found
  | some shape =>
      rw [Tree.level_of_shape? shaped]
      cases shape with
      | parenthesized => rfl
      | «new» name arguments =>
          cases arguments with
          | some list => rfl
          | none =>
              -- Without a list of arguments there would be no child in its slot.
              simp only [target?, Tree.kind?, shaped, Option.map_some, Shape.kind,
                Option.ite_none_right_eq_some, Option.some.injEq] at found
              obtain ⟨_, rfl⟩ := found
              simp [Tree.child?, Tree.childrenIn, Tree.children, shaped, Shape.children,
                Shape.tagged] at held
      | _ => simp [target?, Tree.kind?, shaped, Shape.kind] at found

theorem lowers (config : NewToBuilder) : config.rule.Lowers true := by
  intro tree id offered context
  have applied : (config.rule.apply id context).run tree = (config.apply id).run tree := rfl
  rw [applied, apply, run_bind_ok (RuleStep.run_get tree)]
  have ordered := Tree.ventured_ordered true (tree.level true id)
  cases found : config.target? tree id with
  | none => exact Tree.lessens_of_along (ordered.answer rfl)
  | some creation =>
      dsimp only
      split
      · next first extra list listed held =>
          have top := level_of_target found held
          apply Tree.lessens_of_top top
          apply ordered.follow (ordered.requireChild creation .className _)
          intro className _
          apply ordered.follow (ordered.loop Edit.remove_ventures extra)
          intro _ _
          apply ordered.follow (Ordered.lift (Edit.newInstance_ventures (by omega) (fun _ => by
            rw [top]
            exact Nat.zero_lt_two) config.replacement))
          intro object _
          apply ordered.follow (Ordered.lift (Edit.methodCall_ventures (by omega) object _ list))
          intro new _
          exact ordered.answer (Or.inr ⟨new, rfl⟩)
      · apply Tree.lessens_of_along
        apply ordered.follow (ordered.requireChild creation .className _)
        intro className _
        exact ordered.follow (Ordered.lift (Edit.setName_ventures className config.replacement))
          fun _ _ => ordered.answer rfl

end NewToBuilder

/-- Each rule of the catalog works below the nodes it is offered, but the two that make creations from
calls and calls from creations see different levels. -/
theorem Catalog.lowers_of_makes {id : String} {rule : Rule} (makes : Makes id rule) :
    (id ≠ "new_to_builder" → rule.Lowers false) ∧ (id ≠ "wrap_arguments" → rule.Lowers true) := by
  cases makes with
  | renameFunction config => exact ⟨fun _ => config.lowers, fun _ => config.lowers⟩
  | renameMethod config => exact ⟨fun _ => config.lowers, fun _ => config.lowers⟩
  | newToBuilder config => exact ⟨fun other => absurd rfl other, fun _ => config.lowers⟩
  | renameType config => exact ⟨fun _ => config.lowers, fun _ => config.lowers⟩
  | wrapArguments config => exact ⟨fun _ => config.lowers, fun other => absurd rfl other⟩
  | removeArgument config => exact ⟨fun _ => config.lowers, fun _ => config.lowers⟩
  | stringToClassConstant config => exact ⟨fun _ => config.lowers, fun _ => config.lowers⟩
  | renameMethodByArgument config => exact ⟨fun _ => config.lowers, fun _ => config.lowers⟩
  | extractChainArguments config => exact ⟨fun _ => config.lowers, fun _ => config.lowers⟩

theorem Catalog.lowers_of_build {specs : List RuleSpec} {rules : List Rule}
    (built : build specs = .ok rules)
    (apart : (∀ spec ∈ specs, spec.id ≠ "wrap_arguments")
      ∨ ∀ spec ∈ specs, spec.id ≠ "new_to_builder") :
    ∃ building, ∀ rule ∈ rules, rule.Lowers building := by
  rcases apart with unwrapped | unbuilt
  · refine ⟨true, ?_⟩
    intro rule member
    obtain ⟨spec, listed, makes⟩ := makes_of_build built rule member
    exact (lowers_of_makes makes).2 (unwrapped spec listed)
  · refine ⟨false, ?_⟩
    intro rule member
    obtain ⟨spec, listed, makes⟩ := makes_of_build built rule member
    exact (lowers_of_makes makes).1 (unbuilt spec listed)

end Codemod
