import Codemod.Proofs.Catalog.Spine
import Codemod.Proofs.Run.Guarded
import Codemod.SourceUnit

/-!
Runs that flatten chains. The rule is safe for calls whose values are apart, and for no others: where
one value holds another, both are given new arguments while the inner one keeps its old one, and the
tree cannot be printed any more. Main statement: this tells when a call of a program is flattened well,
and a run in which the values are apart at every offer ends as one without such rules does
(`flattening_keeps_trees`).
-/

namespace Codemod

open Step

/-- A rule is safe where it is tried if it ends well there. -/
theorem Rule.guarded_safe {rule : Rule} {holds : Tree → NodeId → Prop}
    [∀ tree node, Decidable (holds tree node)] (inner : rule.kinds.contains .program = false)
    (accepts : ∀ {tree : Tree}, tree.Proper → ∀ node context,
      ∃ accepted, rule.accepts tree node context = .ok accepted)
    (applies : ∀ {tree : Tree} {node : NodeId}, holds tree node → tree.Proper →
      tree.contains node → tree.Tidy node → (tree.kind? node).any rule.kinds.contains →
        ∀ context, tree.Safely node ((rule.apply node context).run tree)) :
    (rule.guarded holds).Safe where
  inner := inner
  accepts {tree} proper node context := by
    unfold Rule.guarded
    dsimp only
    split
    · exact accepts proper node context
    · exact ⟨false, rfl⟩
  applies {tree node} proper inside tidy offered context := by
    unfold Rule.guarded
    dsimp only
    rw [run_bind_ok (RuleStep.run_get tree)]
    split
    · next held => exact applies held proper inside tidy offered context
    · exact Tree.safely_unchanged tidy.reworked

/-- A rule that was made from a specification, with the configuration that was read from it. -/
theorem RuleSpec.config_of_create {config : Type} {read : Params → Except SpecError config}
    {make : config → Rule} {spec : RuleSpec} {rule : Rule} {title description : String}
    (entry : Catalog.find? title
      = some ⟨title, description, fun params => (read params).map make⟩)
    (created : spec.create = .ok rule) (named : spec.id = title) :
    ∃ config, read ⟨spec.id, spec.params⟩ = .ok config ∧ make config = rule := by
  subst named
  rw [create, entry] at created
  dsimp only at created
  cases parsed : read ⟨spec.id, spec.params⟩ with
  | error reason =>
      rw [parsed] at created
      cases created
  | ok config =>
      rw [parsed] at created
      exact ⟨config, rfl, Except.ok.inj created⟩

namespace ExtractChainArguments

variable {config : ExtractChainArguments}

def ofSpec? (spec : RuleSpec) : Option ExtractChainArguments :=
  if spec.id = "extract_chain_arguments" then (ofParams ⟨spec.id, spec.params⟩).toOption else none

theorem ofSpec?_of_create {spec : RuleSpec} {rule : Rule} (created : spec.create = .ok rule)
    (named : spec.id = "extract_chain_arguments") : ∃ config ∈ ofSpec? spec, config.rule = rule := by
  obtain ⟨config, parsed, made⟩ := RuleSpec.config_of_create rfl created named
  refine ⟨config, ?_, made⟩
  rw [ofSpec?, if_pos named, parsed]
  rfl

theorem guarded_safe {holds : Tree → NodeId → Prop} [∀ tree node, Decidable (holds tree node)]
    (apart : ∀ {tree node}, holds tree node → config.Apart tree node) :
    (config.rule.guarded holds).Safe := by
  apply Rule.guarded_safe rfl fun _ _ _ => ⟨_, rfl⟩
  intro tree node held _ inside tidy _ context
  obtain ⟨after, ran, reworked⟩ := run_apply_apart tidy inside (apart held)
  have applied : (config.rule.apply node context).run tree = (.ok .unchanged, after) := ran
  rw [applied]
  exact Tree.safely_unchanged reworked

/-- A transaction is no concern of what is taken. -/
theorem apart_checkpoint (config : ExtractChainArguments) (tree : Tree) (call : NodeId) :
    config.Apart tree.checkpoint call ↔ config.Apart tree call := by
  have listed : ∀ id, tree.checkpoint.descendants id = tree.descendants id :=
    (⟨rfl, fun _ => rfl, fun _ => rfl⟩ : tree.Matches tree.checkpoint).descendants
  have values : ∀ chain, config.values tree.checkpoint chain = config.values tree chain := by
    intro chain
    unfold ExtractChainArguments.values
    rw [listed]
    rfl
  have chains : config.chain? tree.checkpoint call = config.chain? tree call := by
    unfold chain?
    simp only [listed]
    rfl
  simp only [Apart, taken, passing, chains, values, listed]

end ExtractChainArguments

/-- A tree that does not hold every node once is refused with the name of such a node. -/
theorem Tree.print_unheld {tree : Tree} (rooted : tree.contains tree.root) (unheld : ¬ tree.HeldOnce)
    (options : PrintOptions) :
    (∃ parent child, tree.print options = .error (.dangling parent child))
      ∨ ∃ node, tree.print options = .error (.shared node) := by
  rcases validate_cases rooted with ⟨_, held⟩ | ⟨_, error, refusal, invalid⟩
  · exact absurd held unheld
  · have refused : tree.print options = .error error := by
      rw [print, invalid]
      rfl
    cases error with
    | dangling parent child => exact Or.inl ⟨parent, child, refused⟩
    | shared node => exact Or.inr ⟨node, refused⟩
    | _ => exact absurd refusal id

namespace Run

variable {tree : Tree} {config : ExtractChainArguments} {call : NodeId}

/-- A program in which a call was flattened can be printed if and only if the values were apart. -/
theorem Fit.flattened (fit : Fit tree) (config : ExtractChainArguments) (reached : tree.Reaches call) :
    ∃ after, (config.apply call).run tree = (.ok .unchanged, after)
      ∧ (config.Apart tree call →
        after.HeldOnce ∧ ∀ printing, ∃ text, after.print printing = .ok text)
      ∧ (¬ config.Apart tree call → ¬ after.HeldOnce
        ∧ ∀ printing, (∃ parent child, after.print printing = .error (.dangling parent child))
          ∨ ∃ node, after.print printing = .error (.shared node)) := by
  obtain ⟨after, ran, rooted, reworked, held⟩ := config.run_apply_heldOnce fit.tidy fit.inside reached
  refine ⟨after, ran, ?_, ?_⟩
  · intro apart
    exact ⟨held.mpr apart, (fit.reworked (reworked apart)).print⟩
  · intro nested
    have unheld := mt held.mp nested
    exact ⟨unheld, Tree.print_unheld rooted unheld⟩

def ApartOffers (specs : List RuleSpec) (offers : List Offer) : Prop :=
  ∀ made ∈ offers, made.ruleId = "extract_chain_arguments" → ∀ spec ∈ specs,
    ∀ config ∈ ExtractChainArguments.ofSpec? spec, config.Apart made.tree made.node

instance (specs : List RuleSpec) (offers : List Offer) : Decidable (ApartOffers specs offers) :=
  inferInstanceAs (Decidable (∀ made ∈ offers, _ → ∀ spec ∈ specs,
    ∀ config ∈ ExtractChainArguments.ofSpec? spec, config.Apart made.tree made.node))

open Classical in
/-- Rules of the catalog keep a program fit if no chain that is offered to them holds a value in
another. -/
theorem Fit.passes_flattened (fit : Fit tree) {specs : List RuleSpec} {rules : List Rule}
    (built : Catalog.build specs = .ok rules) (context : Context) (steps left : Nat)
    (apart : ApartOffers specs (offers rules steps context left tree)) :
    Fit (passes rules steps context left {} tree).2
      ∧ (∀ stop, (passes rules steps context left {} tree).1 = .error stop → stop = .exhausted)
      ∧ ∀ ended, (passes rules steps context left {} tree).1 = .ok ended → ended.log.Clean := by
  let holds : Rule → Tree → NodeId → Prop := fun rule tree node => ∀ spec ∈ specs,
    ∀ config ∈ ExtractChainArguments.ofSpec? spec, config.rule = rule → config.Apart tree node
  have safe : ∀ rule ∈ rules, (rule.guarded (holds rule)).Safe := by
    intro rule member
    obtain ⟨spec, among, created⟩ := Catalog.created_of_build built rule member
    rcases (Catalog.makes_of_create created).safe_or with safe | named
    · exact Rule.guarded_safe safe.inner safe.accepts fun _ => safe.applies
    · obtain ⟨config, given, rfl⟩ := ExtractChainArguments.ofSpec?_of_create created named
      exact ExtractChainArguments.guarded_safe fun held => held spec among config given rfl
  have start : ({} : RunOutcome).log.Clean := nofun
  apply passes_go_guarded context steps left safe fit start
  rintro made member ⟨rule, _, same, unmet⟩
  apply unmet
  rintro spec among config given rfl
  rw [config.apart_checkpoint]
  exact apart made member same.symm spec among config given

/-- Applied to any node of a program the rule that flattens chains answers. If the values that it has
passed on are apart, then every node that can be reached is still held by the one slot that its
back-reference names, and the tree can be printed; otherwise neither is so, and the error names a node
that points elsewhere or is shared. They are apart where all source calls stand on the spine of the
chain. A run with rules of the catalog in which they are apart at every offer reports no error and ends
in a tree that can be printed, or for want of steps. -/
theorem flattening_keeps_trees {source : String} {program : List Php.Statement}
    (inner : ∀ place ∈ Php.statementPlaces program, Text.Laid source place.1 place.2)
    (outer : Text.Laid source ⟨0, source.utf8ByteSize⟩ (program.map Php.Statement.span)) :
    let tree := Tree.ofProgram source program
    (∀ (config : ExtractChainArguments) (call : NodeId),
      ∃ after, (config.apply call).run tree = (.ok .unchanged, after)
        ∧ (config.Apart tree call →
          after.HeldOnce ∧ ∀ printing, ∃ text, after.print printing = .ok text)
        ∧ (¬ config.Apart tree call → ¬ after.HeldOnce
          ∧ ∀ printing, (∃ parent child, after.print printing = .error (.dangling parent child))
            ∨ ∃ node, after.print printing = .error (.shared node))
        ∧ ∀ chain, tree.positionalValue? call 0 = some chain → config.Straight tree chain →
          config.Apart tree call)
    ∧ ∀ specs rules, Catalog.build specs = .ok rules → ∀ context maxPasses steps,
      ApartOffers specs (offers rules steps context (max maxPasses 1) tree) →
      (∀ outcome after, run rules ⟨maxPasses, steps⟩ context tree = (.ok outcome, after) →
        after.HeldOnce ∧ (∀ diagnostic ∈ outcome.log.diagnostics, diagnostic.isError = false)
          ∧ ∀ printing, ∃ text, after.print printing = .ok text)
      ∧ ∀ stop after, run rules ⟨maxPasses, steps⟩ context tree = (.error stop, after) →
        stop = .exhausted := by
  intro tree
  have fit : Fit tree := fit_ofProgram inner outer
  constructor
  · intro config call
    rcases config.run_apply tree call with ⟨empty, ran⟩ | ⟨chain, _, _, found, _⟩
    · have apart : config.Apart tree call := by
        rw [ExtractChainArguments.Apart, ExtractChainArguments.taken, empty]
        exact .nil
      exact ⟨tree, ran, fun _ => ⟨Tree.heldOnce_iff_tidy.mpr fit.tidy, fit.print⟩,
        fun nested => absurd apart nested, fun _ _ _ => apart⟩
    · have reached := ExtractChainArguments.reaches_of_chain? found
      obtain ⟨after, ran, printed, refused⟩ := fit.flattened config reached
      refine ⟨after, ran, printed, refused, ?_⟩
      intro chain first straight
      exact straight.apart (fit.tidy.sub reached) (fit.tidy.contains_below fit.inside reached) first
  · intro specs rules built context maxPasses steps apart
    obtain ⟨ends, stops⟩ := run_goes context steps (fit.passes_flattened built context steps _ apart)
    refine ⟨?_, stops⟩
    intro outcome after ran
    obtain ⟨kept, clean⟩ := ends outcome after ran
    exact ⟨Tree.heldOnce_iff_tidy.mpr kept.tidy, clean, kept.print⟩

def flattenSpecs : List RuleSpec :=
  [⟨"extract_chain_arguments", [("method", .string "attach"),
    ("sources", .list ["fromPath", "setName"])]⟩]

def flattenRules : List Rule :=
  (Catalog.build flattenSpecs).toOption.getD []

-- The chain whose source calls follow one another.
def chainedTree : Tree :=
  Tree.ofProgram "<?php $m->attach(A::fromPath('x')->setName('y'));" ExtractChainArguments.chained

/-- Both values move into new arguments in the first pass; the second one confirms. -/
theorem flattening_keeps_chained : Catalog.build flattenSpecs = .ok flattenRules
    ∧ ApartOffers flattenSpecs (offers flattenRules 40 {} 3 chainedTree)
    ∧ ∃ outcome after, run flattenRules ⟨3, 40⟩ {} chainedTree = (.ok outcome, after)
      ∧ outcome.editingPasses = 1 ∧ after.HeldOnce
      ∧ (after.print {}).toOption = some "<?php $m->attach('x', 'y');" := by
  have built : Catalog.build flattenSpecs = .ok flattenRules := Catalog.build_getD (by decide +kernel)
  have facts : ApartOffers flattenSpecs (offers flattenRules 40 {} 3 chainedTree)
      ∧ ((run flattenRules ⟨3, 40⟩ {} chainedTree).1.toOption.map RunOutcome.editingPasses) = some 1
      ∧ ((run flattenRules ⟨3, 40⟩ {} chainedTree).2.print {}).toOption
        = some "<?php $m->attach('x', 'y');" := by
    decide +kernel
  have laid : (∀ place ∈ Php.statementPlaces ExtractChainArguments.chained,
        Text.Laid "<?php $m->attach(A::fromPath('x')->setName('y'));" place.1 place.2)
      ∧ Text.Laid "<?php $m->attach(A::fromPath('x')->setName('y'));"
        ⟨0, "<?php $m->attach(A::fromPath('x')->setName('y'));".utf8ByteSize⟩
        (ExtractChainArguments.chained.map Php.Statement.span) := by
    decide +kernel
  obtain ⟨apart, ends⟩ := facts
  obtain ⟨inner, outer⟩ := laid
  obtain ⟨ended, _⟩ := (flattening_keeps_trees inner outer).2 _ _ built {} 3 40 apart
  refine ⟨built, apart, ?_⟩
  generalize ran : run flattenRules ⟨3, 40⟩ {} chainedTree = result at ends
  rcases result with ⟨stop | outcome, after⟩
  · cases ends.1
  · exact ⟨outcome, after, rfl, Option.some.inj ends.1, (ended outcome after ran).1, ends.2⟩

-- The call of one source stands in the argument of the other.
def nested : List Php.Statement :=
  (Php.program "<?php $m->attach(A::fromPath(B::setName('x')));").toOption.getD []

/-- The call of `setName` and its argument are both taken: the call keeps an argument that is held by
the new list as well, and the rewrite is thrown away for it. -/
theorem flattens_nested :
    let tree := Tree.ofProgram "<?php $m->attach(A::fromPath(B::setName('x')));" nested
    let after := ((ExtractChainArguments.attaching.apply ⟨17⟩).run tree).2
    let ended := SourceUnit.process ⟨"", "<?php $m->attach(A::fromPath(B::setName('x')));"⟩
      flattenRules { run := ⟨3, 40⟩ } {}
    ¬ ExtractChainArguments.attaching.Apart tree ⟨17⟩ ∧ ¬ after.HeldOnce
      ∧ after.print {} = .error (.dangling ⟨9⟩ ⟨8⟩)
      ∧ ended.toOption.map UnitOutcome.changed = some false
      ∧ ended.toOption.map (fun outcome => outcome.diagnostics.map Diagnostic.kind)
        = some [.printError] := by
  intro tree after ended
  have facts : ¬ ExtractChainArguments.attaching.Apart tree ⟨17⟩
      ∧ tree.kind? ⟨17⟩ = some .methodCall
      ∧ (match after.print {} with
        | .error error => some error
        | .ok _ => none) = some (.dangling ⟨9⟩ ⟨8⟩)
      ∧ ended.toOption.map UnitOutcome.changed = some false
      ∧ ended.toOption.map (fun outcome => outcome.diagnostics.map Diagnostic.kind)
        = some [.printError] := by
    decide +kernel
  obtain ⟨mingled, kind, refused, discarded⟩ := facts
  have tidy : tree.Tidy tree.root := Tree.ofProgram_tidy
  obtain ⟨flat, ran, _, _, held⟩ := ExtractChainArguments.attaching.run_apply_heldOnce tidy
    (Tree.contains_of_kind? Tree.ofProgram_rooted) (Tree.ofProgram_reaches kind (by decide))
  have unheld : ¬ ((ExtractChainArguments.attaching.apply ⟨17⟩).run tree).2.HeldOnce := by
    rw [ran]
    exact mt held.mp mingled
  refine ⟨mingled, unheld, ?_, discarded⟩
  generalize after.print {} = answer at refused ⊢
  cases answer with
  | error error => exact congrArg Except.error (Option.some.inj refused)
  | ok text => cases refused

end Run

end Codemod
