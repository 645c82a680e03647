import Codemod.Proofs.Catalog.Wrapping
import Codemod.Proofs.Run.Ending
import Codemod.Proofs.Run.Sweep

/-!
Runs that wrap arguments. A visit settles its call, whatever was built around it and whatever is still
to be visited below it, and no later visit unsettles it. So the first pass leaves nothing to do, unless
a new name is itself one that the table gives another name. Main statement: such a run converges in
two passes, with all arguments wrapped (`run_wrapping`).
-/

namespace Codemod

open Step

namespace WrapArguments

variable {config : WrapArguments} {origin tree after : Tree} {call : NodeId}

theorem stays (config : WrapArguments) : config.rule.Stays := by
  intro tree call context verdict after ran
  have unfolded : (config.rule.apply call context).run tree = (config.apply call).run tree := rfl
  have told := (config.apply_along Nat.one_pos call tree).2 verdict
  rw [← unfolded, ran] at told
  exact told rfl

-- No new name is one that the table gives yet another name.
def Stable (config : WrapArguments) : Prop :=
  ∀ entry ∈ config.methods, entry.2 ≠ "" → ∀ next, config.methods.find? entry.2 = some next →
    next = "" ∨ next = entry.2

structure Visited (config : WrapArguments) (tree : Tree) (call : NodeId) (after : Tree) : Prop where
  reworked : tree.Reworked call after call
  idle : config.Stable → config.plan after call = none
  filled : config.contents after call = .nothing
  spared : ∀ {top other}, tree.Tidy top → tree.Below top call → tree.Below top other →
    tree.kind? other = some .methodCall → other ≠ call → after.callName? other = tree.callName? other
      ∧ (config.contents tree other = .nothing → config.contents after other = .nothing)

theorem kind_of_offered (offered : (tree.kind? call).any config.rule.kinds.contains) :
    tree.kind? call = some .methodCall := by
  cases found : tree.kind? call with
  | none => simp [found] at offered
  | some kind => simpa [found, rule] using offered

theorem visited_of_applied (fit : Run.Fit tree) (reached : tree.Reaches call)
    (offered : (tree.kind? call).any config.rule.kinds.contains) {context : Context}
    (accepted : config.rule.accepts tree.checkpoint call context = .ok true)
    (applied : (config.rule.apply call context).run tree = (.ok .unchanged, after)) :
    config.Visited tree call after := by
  have kind := kind_of_offered offered
  obtain ⟨plan, planned⟩ : ∃ plan, config.plan tree call = some plan :=
    Option.isSome_iff_exists.mp (Except.ok.inj accepted)
  obtain ⟨edited, title, method, ran, reworked, named, held, spelled, renamed, fills⟩ :=
    config.run_apply (fit.tidy.sub reached) kind planned
  have same : (config.apply call).run tree = (.ok .unchanged, after) := applied
  cases ran.symm.trans same
  obtain ⟨_, newName, also, looked, renames, contents, _⟩ := plan_eq_some_iff.mp planned
  cases named.symm.trans also
  rw [contents] at fills
  have spares := fills.spares reworked kind held spelled
  have filled := fills.nothing_left spares fit.tidy reached
  refine ⟨reworked, fun stable => ?_, filled, ?_⟩
  · -- The call has its new name by now, for which the table has no other one.
    rw [plan_eq_none_iff]
    intro name next called follows
    cases renamed.symm.trans called
    refine ⟨?_, filled⟩
    by_cases changes : newName ≠ "" ∧ newName ≠ title
    · rw [renames, if_pos changes] at follows ⊢
      obtain ⟨key, member, _⟩ := NameTable.mem_of_find? looked
      exact stable (key, newName) member changes.1 next follows
    · rw [renames, if_neg changes] at follows ⊢
      cases looked.symm.trans follows
      simpa [or_iff_not_imp_left] using changes
  · intro top other tidy below otherBelow otherKind differs
    exact ⟨spares.callName?_other tidy below otherKind differs otherBelow,
      spares.contents_other tidy below otherKind differs otherBelow⟩

structure Settling (config : WrapArguments) (origin tree : Tree) (marks : NodeSet) : Prop where
  size : origin.size ≤ tree.size
  kinds : ∀ {id}, origin.contains id → tree.kind? id = origin.kind? id
  kept : ∀ {call}, origin.kind? call = some .methodCall → tree.Reaches call → ¬ marks.contains call →
    tree.callName? call = origin.callName? call
  idle : ∀ {call}, marks.contains call → tree.Reaches call → tree.kind? call = some .methodCall →
    config.plan tree call = none
  filled : ∀ {call title}, origin.kind? call = some .methodCall → marks.contains call →
    tree.Reaches call → origin.callName? call = some title → (config.methods.find? title).isSome →
      config.contents tree call = .nothing

theorem contents_of_commit {other : Tree} (same : other.commit = tree.commit) (call : NodeId) :
    config.contents other call = config.contents tree call := by
  unfold contents needsWrap isWrapped Tree.instantiatedClass? Tree.spelledName? Tree.positionalValue?
    Tree.arguments Tree.kind? Tree.child? Tree.childrenIn Tree.children
  rw [Tree.shapes_of_commit same]

theorem plan_of_commit {other : Tree} (same : other.commit = tree.commit) (call : NodeId) :
    config.plan other call = config.plan tree call := by
  rw [plan, Tree.callName?_of_commit same, contents_of_commit same, plan]

theorem Settling.of_commit {other : Tree} {marks : NodeSet} (same : other.commit = tree.commit)
    (settling : config.Settling origin tree marks) : config.Settling origin other marks := by
  have reaches : ∀ {id}, other.Reaches id → tree.Reaches id := by
    intro id reached
    rw [Tree.Reaches, Tree.root_of_commit same] at reached
    exact reached.of_nodes (Tree.nodes_of_commit same)
  constructor
  case size =>
    have sizes : other.size = tree.size := by rw [Tree.size, Tree.nodes_of_commit same, Tree.size]
    rw [sizes]
    exact settling.size
  case kinds =>
    intro id inside
    rw [Pass.kind?_of_commit same]
    exact settling.kinds inside
  case kept =>
    intro call kind reached fresh
    rw [Tree.callName?_of_commit same]
    exact settling.kept kind (reaches reached) fresh
  case idle =>
    intro call marked reached kind
    rw [Pass.kind?_of_commit same] at kind
    rw [plan_of_commit same]
    exact settling.idle marked (reaches reached) kind
  case filled =>
    intro call title kind marked reached named looked
    rw [contents_of_commit same]
    exact settling.filled kind marked (reaches reached) named looked

/-- A call that is left alone was settled before. -/
theorem Settling.passed {marks : NodeSet} (settling : config.Settling origin tree marks)
    (fresh : ¬ marks.contains call) (declines : tree.kind? call = some .methodCall →
      config.plan tree call = none) : config.Settling origin tree (marks.insert call) where
  size := settling.size
  kinds := settling.kinds
  kept kind reached unmarked := settling.kept kind reached fun marked => unmarked (by simp [marked])
  idle {other} marked reached kind := by
    rw [NodeSet.contains_insert_iff] at marked
    rcases marked with rfl | early
    · exact declines kind
    · exact settling.idle early reached kind
  filled {other title} kind marked reached named looked := by
    rw [NodeSet.contains_insert_iff] at marked
    rcases marked with rfl | early
    · obtain ⟨newName, found⟩ := Option.isSome_iff_exists.mp looked
      have idle := declines ((settling.kinds (Tree.contains_of_kind? kind)).trans kind)
      rw [← settling.kept kind reached fresh] at named
      exact (plan_eq_none_iff.mp idle title newName named found).2
    · exact settling.filled kind early reached named looked

/-- A call that the rule is applied to is settled then, and those that were settled stay so. -/
theorem Settling.applied {marks : NodeSet} (stable : config.Stable) (fit : Run.Fit tree)
    (inside : ∀ {id}, marks.contains id → tree.contains id)
    (settling : config.Settling origin tree marks) (reached : tree.Reaches call)
    (called : tree.kind? call = some .methodCall) (visited : config.Visited tree call after) :
    config.Settling origin after (marks.insert call) := by
  have whole := visited.reworked.lift fit.tidy reached fit.inside
  -- Calls that were there and can be reached now could be reached before the visit.
  have early : ∀ {other}, after.Reaches other → tree.contains other → tree.Reaches other := by
    intro other late present
    rw [Tree.Reaches, whole.root] at late
    rcases whole.reach late with ⟨below, _⟩ | fresh
    · exact below
    · exact absurd present fresh
  have old : ∀ {other}, origin.contains other → tree.contains other := Tree.grown settling.size
  have spared : ∀ {other}, after.Reaches other → tree.contains other →
      after.kind? other = some .methodCall → other ≠ call →
        after.callName? other = tree.callName? other
          ∧ (config.contents tree other = .nothing → config.contents after other = .nothing) :=
    fun late present kind => visited.spared fit.tidy reached (early late present)
      ((visited.reworked.kinds present).symm.trans kind)
  have kinds : ∀ {id}, origin.contains id → after.kind? id = origin.kind? id :=
    fun present => (visited.reworked.kinds (old present)).trans (settling.kinds present)
  refine ⟨Nat.le_trans settling.size visited.reworked.size, kinds, ?_, ?_, ?_⟩
  · intro other kind late unmarked
    have present := Tree.contains_of_kind? kind
    rw [NodeSet.contains_insert_iff, not_or] at unmarked
    rw [(spared late (old present) ((kinds present).trans kind) unmarked.1).1]
    exact settling.kept kind (early late (old present)) unmarked.2
  · intro other marked late kind
    rw [NodeSet.contains_insert_iff] at marked
    by_cases same : other = call
    · subst same
      exact visited.idle stable
    · have before := marked.resolve_left same
      obtain ⟨named, filled⟩ := spared late (inside before) kind same
      have idle := plan_eq_none_iff.mp (settling.idle before (early late (inside before))
        ((visited.reworked.kinds (inside before)).symm.trans kind))
      refine plan_eq_none_iff.mpr fun title newName spelled looked => ?_
      obtain ⟨kept, nothing⟩ := idle title newName (named.symm.trans spelled) looked
      exact ⟨kept, filled nothing⟩
  · intro other title kind marked late named looked
    rw [NodeSet.contains_insert_iff] at marked
    by_cases same : other = call
    · subst same
      exact visited.filled
    · have present := old (Tree.contains_of_kind? kind)
      have calls := (kinds (Tree.contains_of_kind? kind)).trans kind
      exact (spared late present calls same).2 (settling.filled kind (marked.resolve_left same)
        (early late present) named looked)

theorem settling_sweeps (stable : config.Stable) (context : Context) :
    Sweep config.rule context (config.Settling origin) where
  of_commit same settling := settling.of_commit same
  passed {tree marks id} sweeping reached fresh declines := by
    apply sweeping.holds.passed fresh
    intro kind
    have offered : (tree.kind? id).any config.rule.kinds.contains := by
      rw [kind]
      rfl
    have refused : (config.plan tree id).isSome = false := Except.ok.inj (declines offered)
    exact Option.not_isSome_iff_eq_none.mp (by rw [refused]; exact Bool.false_ne_true)
  applied sweeping reached fresh offered accepted reworked applied :=
    sweeping.holds.applied stable sweeping.fit sweeping.inside reached (kind_of_offered offered)
      (visited_of_applied sweeping.fit reached offered accepted applied)

theorem settling_start (config : WrapArguments) (tree : Tree) : config.Settling tree tree {} where
  size := Nat.le_refl _
  kinds _ := rfl
  kept _ _ _ := rfl
  idle := nofun
  filled := nofun

theorem Settling.declines {marks : NodeSet} (settling : config.Settling origin tree marks)
    (met : ∀ {id}, tree.Reaches id → marks.contains id) (context : Context)
    (reached : tree.Reaches call) : config.rule.Declines context tree call := by
  intro offered
  have idle := settling.idle (met reached) reached (kind_of_offered offered)
  have answers : config.rule.accepts tree.checkpoint call context
      = .ok (config.plan tree call).isSome := rfl
  rw [answers, idle]
  rfl

end WrapArguments

namespace Run

/-- Take any program and any table in which no new name is itself given another name. With two passes
or more a run of the rule converges, in two of them at most. Every call of a method that can still be
reached then, and whose name in the program is in the table, has its first argument wrapped if that is
passed by position: it is a new object of the class, or an array in which the value of each item that
is not unpacked is one. -/
theorem run_wrapping {source : String} {program : List Php.Statement}
    (inner : ∀ place ∈ Php.statementPlaces program, Text.Laid source place.1 place.2)
    (outer : Text.Laid source ⟨0, source.utf8ByteSize⟩ (program.map Php.Statement.span))
    {config : WrapArguments} (stable : config.Stable) {maxPasses : Nat} (enough : 2 ≤ maxPasses)
    (context : Context) :
    let tree := Tree.ofProgram source program
    ∃ bound outcome after,
      (∀ steps, bound ≤ steps →
        run [config.rule] ⟨maxPasses, steps⟩ context tree = (.ok outcome, after))
      ∧ outcome.converged = true ∧ outcome.passes ≤ 2
      ∧ ∀ call title first, tree.kind? call = some .methodCall → tree.callName? call = some title →
        (config.methods.find? title).isSome → after.Reaches call →
          after.positionalValue? call 0 = some first → config.Settled after first := by
  intro tree
  have fit : Fit tree := fit_ofProgram inner outer
  -- The run ends for its own reasons; the first pass settles all calls, the second one sees it.
  have lowers : ∀ rule ∈ [config.rule], rule.Lowers false :=
    fun rule member => List.mem_singleton.mp member ▸ config.lowers
  obtain ⟨bound, ended, after, ends, _⟩ :=
    passes_end context lowers (max maxPasses 1) {} (ofProgram_seated source program)
  obtain ⟨left, most⟩ : ∃ left, max maxPasses 1 = left + 2 := ⟨maxPasses - 2, by omega⟩
  have ran := ends bound (Nat.le_refl _)
  rw [most] at ran
  obtain ⟨converged, few, marks, swept, met⟩ := passes_settle
    (WrapArguments.settling_sweeps stable context) config.safe config.stays fit
    (config.settling_start tree) (fun sweeping met => sweeping.holds.declines met context) ran
  have same := concluded_of_converged converged
  refine ⟨bound, ended, after, ?_, converged, by simpa using few, ?_⟩
  · intro steps more
    rw [run_eq, ends steps more]
    exact congrArg (fun outcome => (Except.ok outcome, after)) same
  · intro call title first kind named looked reached passed
    have nothing := swept.holds.filled kind (met reached) reached named looked
    exact WrapArguments.contents_eq_nothing_iff.mp nothing first passed

def nestParams : Params :=
  ⟨"wrap_arguments", [("class", .string "Address"), ("methods", .stringMap [("setTo", "to")])]⟩

def nesting : WrapArguments :=
  ⟨[("setTo", "to")], "Address"⟩

-- The statement `$m->setTo([$n->setTo('a'), 'b']);`.
def nestProgram : List Php.Statement :=
  (Php.program "<?php $m->setTo([$n->setTo('a'), 'b']);").toOption.getD []

def nestTree : Tree :=
  Tree.ofProgram "<?php $m->setTo([$n->setTo('a'), 'b']);" nestProgram

/-- The call in the array is visited after it was taken into a new object. -/
theorem run_wrapping_nested : WrapArguments.ofParams nestParams = .ok nesting ∧ nesting.Stable
    ∧ nestTree.callName? ⟨16⟩ = some "setTo" ∧ nestTree.callName? ⟨9⟩ = some "setTo"
    ∧ ∃ bound outcome after,
      (∀ steps, bound ≤ steps → run [nesting.rule] ⟨10, steps⟩ {} nestTree = (.ok outcome, after))
      ∧ outcome.converged = true ∧ outcome.passes ≤ 2
      ∧ ∀ call ∈ [(⟨16⟩ : NodeId), ⟨9⟩], after.Reaches call →
        ∀ first, after.positionalValue? call 0 = some first → nesting.Settled after first := by
  have laid : (∀ place ∈ Php.statementPlaces nestProgram,
        Text.Laid "<?php $m->setTo([$n->setTo('a'), 'b']);" place.1 place.2)
      ∧ Text.Laid "<?php $m->setTo([$n->setTo('a'), 'b']);"
        ⟨0, "<?php $m->setTo([$n->setTo('a'), 'b']);".utf8ByteSize⟩
        (nestProgram.map Php.Statement.span) := by
    decide +kernel
  have calls : ∀ call ∈ [(⟨16⟩ : NodeId), ⟨9⟩], nestTree.kind? call = some .methodCall
      ∧ nestTree.callName? call = some "setTo" := by
    decide +kernel
  have looked : nesting.methods.find? "setTo" = some "to" ∧ nesting.methods.find? "to" = none := by
    decide +kernel
  have stable : nesting.Stable := by
    intro entry member _ next found
    obtain rfl : entry = ("setTo", "to") := by simpa [nesting] using member
    rw [looked.2] at found
    cases found
  have given : nestParams.requireString "class" = .ok "Address"
      ∧ nestParams.requireNames "methods" = .ok nesting.methods := by
    decide +kernel
  have accepted : WrapArguments.ofParams nestParams = .ok nesting := by
    rw [WrapArguments.ofParams, given.1, given.2]
    rfl
  obtain ⟨bound, outcome, after, ran, converged, few, settled⟩ :=
    run_wrapping laid.1 laid.2 stable (show 2 ≤ 10 by decide) {}
  refine ⟨accepted, stable, (calls ⟨16⟩ (by decide)).2, (calls ⟨9⟩ (by decide)).2, bound, outcome,
    after, ran, converged, few, ?_⟩
  intro call member reached first passed
  obtain ⟨kind, named⟩ := calls call member
  exact settled call "setTo" first kind named (by rw [looked.1]; rfl) reached passed

end Run

end Codemod
