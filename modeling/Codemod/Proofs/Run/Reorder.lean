import Codemod.Proofs.Catalog.Counting
import Codemod.Proofs.Run.Unedited

/-!
Rules that may trade places. A rule that leaves its node where it is, and of the kind it was, hands
on to the next rule what it was handed itself; so of two such rules with no kind in common only one
is ever asked about a node, and it does not matter which of them comes first. Main statement:
swapping them changes nothing of a run (`Run.run_swap`).
-/

namespace Codemod

open Step

/-- Where the rule answers it leaves its node to the walk, of the kind it was. Where it fails, that
is so once the transaction is rolled back. -/
structure Rule.InPlace (rule : Rule) : Prop where
  stays : ∀ {tree edited : Tree} {node : NodeId} {context : Context} {verdict : Verdict},
    (tree.kind? node).any rule.kinds.contains →
      (rule.apply node context).run tree = (.ok verdict, edited) →
        verdict = .unchanged ∧ edited.kind? node = tree.kind? node
  undone : ∀ {tree edited : Tree} {node : NodeId} {context : Context} {failure : Failure},
    (tree.kind? node).any rule.kinds.contains →
      (rule.apply node context).run tree.checkpoint = (.error failure, edited) →
        edited.rollback.kind? node = tree.kind? node

/-- Rolling back takes every edit back, so a rule that opens no transaction may fail anywhere. -/
theorem Rule.InPlace.of_edits {rule : Rule} (edits : rule.Edits)
    (stays : ∀ {tree edited : Tree} {node : NodeId} {context : Context} {verdict : Verdict},
      (tree.kind? node).any rule.kinds.contains →
        (rule.apply node context).run tree = (.ok verdict, edited) →
          verdict = .unchanged ∧ edited.kind? node = tree.kind? node) : rule.InPlace where
  stays := stays
  undone {tree edited node context failure} offered ran := by
    obtain ⟨operations, made, _⟩ := edits node context tree.checkpoint
    rw [ran] at made
    have made : edited = tree.checkpoint.edited operations := made
    rw [made, Tree.rollback_edited]
    rfl

def Rule.Apart (first second : Rule) : Prop :=
  ∀ kind ∈ first.kinds, kind ∉ second.kinds

instance (first second : Rule) : Decidable (first.Apart second) :=
  inferInstanceAs (Decidable (∀ kind ∈ first.kinds, kind ∉ second.kinds))

theorem Rule.Apart.symm {first second : Rule} (apart : first.Apart second) : second.Apart first :=
  fun kind wanted also => apart kind also wanted

namespace Pass

theorem applyRule_inPlace {rule : Rule} (inPlace : rule.InPlace) (context : Context)
    {node : NodeId} {tree : Tree} (offered : (tree.kind? node).any rule.kinds.contains)
    (link : Option Link) (anchor : Option Span) (log : Log) :
    ∃ after entries, applyRule rule context node link anchor tree log = (.unchanged, after, entries)
      ∧ after.kind? node = tree.kind? node := by
  have attempts := run_attempt rule context node tree.checkpoint
  have opened : (tree.checkpoint.kind? node).any rule.kinds.contains := offered
  unfold applyRule
  -- Only an answer leaves edits behind; all else leads back to the tree of the checkpoint.
  cases accepted : rule.accepts tree.checkpoint node context with
  | error crash =>
      rw [accepted] at attempts
      rw [attempts]
      exact ⟨_, _, rfl, by rw [tree.checkpoint_rollback]; rfl⟩
  | ok applies =>
      cases applies with
      | false =>
          rw [accepted] at attempts
          rw [attempts]
          exact ⟨_, _, rfl, rfl⟩
      | true =>
          rw [accepted] at attempts
          dsimp only at attempts
          generalize ran : (rule.apply node context).run tree.checkpoint = result at attempts
          rcases result with ⟨failure | verdict, edited⟩
          · rw [attempts]
            exact ⟨_, _, rfl, inPlace.undone offered ran⟩
          · obtain ⟨rfl, kept⟩ := inPlace.stays opened ran
            rw [attempts]
            exact ⟨_, _, rfl, kept⟩

def Alike (rules others : List Rule) : Prop :=
  ∀ context link anchor current verdict tree log,
    offer context link anchor rules current verdict tree log
      = offer context link anchor others current verdict tree log

theorem Alike.trans {rules middle others : List Rule} (first : Alike rules middle)
    (second : Alike middle others) : Alike rules others := by
  intro context link anchor current verdict tree log
  rw [first, second]

theorem alike_cons (rule : Rule) {rest others : List Rule} (alike : Alike rest others) :
    Alike (rule :: rest) (rule :: others) := by
  intro context link anchor current verdict tree log
  have later : offer context link anchor rest = offer context link anchor others := by
    funext current verdict tree log
    exact alike context link anchor current verdict tree log
  rw [offer, offer, later]

theorem alike_append (front : List Rule) {rules others : List Rule} (alike : Alike rules others) :
    Alike (front ++ rules) (front ++ others) := by
  induction front with
  | nil => exact alike
  | cons rule rest ih => exact alike_cons rule ih

theorem offer_skip {rule : Rule} {rest : List Rule} {current : NodeId} {tree : Tree}
    (skipped : (tree.kind? current).any rule.kinds.contains = false) (context : Context)
    (link : Option Link) (anchor : Option Span) (verdict : Verdict) (log : Log) :
    offer context link anchor (rule :: rest) current verdict tree log
      = offer context link anchor rest current verdict tree log := by
  rw [offer, if_neg (Bool.eq_false_iff.mp skipped)]

theorem skipped_of_apart {first second : Rule} (apart : first.Apart second) {tree : Tree}
    {node : NodeId} (offered : (tree.kind? node).any first.kinds.contains) :
    (tree.kind? node).any second.kinds.contains = false := by
  obtain ⟨kind, found⟩ : ∃ kind, tree.kind? node = some kind := by
    cases found : tree.kind? node with
    | none => simp [found] at offered
    | some kind => exact ⟨kind, rfl⟩
  rw [found] at offered ⊢
  have wanted : kind ∈ first.kinds := by simpa using offered
  simpa using apart kind wanted

/-- Where the one rule is asked the other is not, neither before nor after. -/
theorem offer_either {asked other : Rule} (apart : asked.Apart other) (inPlace : asked.InPlace)
    (rest : List Rule) (context : Context) (link : Option Link) (anchor : Option Span)
    {current : NodeId} {tree : Tree} (offered : (tree.kind? current).any asked.kinds.contains)
    (verdict : Verdict) (log : Log) :
    offer context link anchor (asked :: other :: rest) current verdict tree log
      = offer context link anchor (other :: asked :: rest) current verdict tree log := by
  obtain ⟨after, entries, applied, kept⟩ :=
    applyRule_inPlace inPlace context offered link anchor log
  have before := skipped_of_apart apart offered
  have behind : (after.kind? current).any other.kinds.contains = false := by rwa [kept]
  calc offer context link anchor (asked :: other :: rest) current verdict tree log
      = offer context link anchor (other :: rest) current verdict after entries := by
        rw [offer, if_pos offered, applied]
    _ = offer context link anchor rest current verdict after entries :=
        offer_skip behind context link anchor verdict entries
    _ = offer context link anchor (asked :: rest) current verdict tree log := by
        rw [offer, if_pos offered, applied]
    _ = offer context link anchor (other :: asked :: rest) current verdict tree log :=
        (offer_skip before context link anchor verdict log).symm

theorem alike_swap {first second : Rule} (apart : first.Apart second) (firstStays : first.InPlace)
    (secondStays : second.InPlace) (rest : List Rule) :
    Alike (first :: second :: rest) (second :: first :: rest) := by
  intro context link anchor current verdict tree log
  -- At most one of the two is asked, and if neither is, both orders go on with the rest.
  by_cases firstAsked : (tree.kind? current).any first.kinds.contains
  · exact offer_either apart firstStays rest context link anchor firstAsked verdict log
  · by_cases secondAsked : (tree.kind? current).any second.kinds.contains
    · exact (offer_either apart.symm secondStays rest context link anchor secondAsked verdict
        log).symm
    · have first := Bool.eq_false_iff.mpr firstAsked
      have second := Bool.eq_false_iff.mpr secondAsked
      rw [offer_skip first, offer_skip second, offer_skip second, offer_skip first]

/-- Rules of which no two have a kind in common may stand in any order. -/
theorem alike_perm {rules others : List Rule} (perm : rules.Perm others)
    (apart : rules.Pairwise Rule.Apart) (inPlace : ∀ rule ∈ rules, rule.InPlace) :
    Alike rules others := by
  induction perm with
  | nil => exact fun _ _ _ _ _ _ _ => rfl
  | cons rule _ ih =>
      obtain ⟨_, laterApart⟩ := List.pairwise_cons.mp apart
      exact alike_cons rule (ih laterApart (List.forall_mem_cons.mp inPlace).2)
  | swap first second rest =>
      obtain ⟨secondApart, _⟩ := List.pairwise_cons.mp apart
      obtain ⟨secondStays, others⟩ := List.forall_mem_cons.mp inPlace
      exact alike_swap (secondApart first List.mem_cons_self) secondStays
        (List.forall_mem_cons.mp others).1 rest
  | trans former _ ih laterIh =>
      -- Being apart has no direction, so it survives any order.
      have still := former.pairwise apart fun apart => apart.symm
      exact (ih apart inPlace).trans
        (laterIh still fun rule member => inPlace rule (former.mem_iff.mpr member))

theorem Alike.visitor {rules others : List Rule} (alike : Alike rules others) (context : Context) :
    Pass.visitor rules context = Pass.visitor others context := by
  funext node
  have answers : ∀ link anchor, offer context link anchor rules
      = offer context link anchor others := by
    intro link anchor
    funext current verdict tree log
    exact alike context link anchor current verdict tree log
  simp only [Pass.visitor, answers]

end Pass

namespace Run

theorem run_alike {rules others : List Rule} (alike : Pass.Alike rules others)
    (options : RunOptions) (context : Context) (tree : Tree) :
    run rules options context tree = run others options context tree := by
  have same : ∀ left outcome tree, passes rules options.steps context left outcome tree
      = passes others options.steps context left outcome tree := by
    intro left
    induction left with
    | zero => exact fun _ _ => rfl
    | succ left ih =>
        intro outcome tree
        simp only [passes, alike.visitor, ih]
  rw [run, run, same]

end Run

namespace RuleStep

theorem edits_requireChild (id : NodeId) (slot : Slot) (expected : String) :
    (requireChild id slot expected).Edits := by
  refine edits_bind edits_get fun tree => ?_
  cases tree.child? id slot with
  | some child => exact edits_pure child
  | none =>
      cases tree.kind? id with
      | some found => exact edits_throw _
      | none => exact edits_throw _

end RuleStep

theorem Tree.Counted.keeps_offered {before after : Tree} (counted : before.Counted after)
    {node : NodeId} {kinds : List Kind} (offered : (before.kind? node).any kinds.contains) :
    after.kind? node = before.kind? node := by
  cases found : before.kind? node with
  | none => simp [found] at offered
  | some kind => exact counted.kinds found

theorem RenameFunction.inPlace (config : RenameFunction) : config.rule.InPlace := by
  apply Rule.InPlace.of_edits
  · intro call context
    refine RuleStep.edits_bind RuleStep.edits_get fun tree => ?_
    cases config.target? tree call with
    | none => exact RuleStep.edits_pure _
    | some renamed =>
        refine RuleStep.edits_bind (RuleStep.edits_requireChild call .callee _) fun callee => ?_
        exact RuleStep.edits_bind (RuleStep.edits_setName callee renamed) fun _ =>
          RuleStep.edits_pure _
  · intro tree edited call context verdict offered ran
    obtain ⟨stays, counted⟩ := apply_ok ran
    exact ⟨stays, counted.keeps_offered offered⟩

theorem RenameMethod.inPlace (config : RenameMethod) : config.rule.InPlace := by
  apply Rule.InPlace.of_edits
  · intro call context
    refine RuleStep.edits_bind RuleStep.edits_get fun tree => ?_
    cases config.target? tree call with
    | none => exact RuleStep.edits_pure _
    | some renamed =>
        cases tree.child? call .method with
        | none => exact RuleStep.edits_pure _
        | some method =>
            exact RuleStep.edits_bind (RuleStep.edits_setName method renamed) fun _ =>
              RuleStep.edits_pure _
  · intro tree edited call context verdict offered ran
    obtain ⟨stays, counted⟩ := apply_ok ran
    exact ⟨stays, counted.keeps_offered offered⟩

theorem RenameType.inPlace (config : RenameType) : config.rule.InPlace := by
  apply Rule.InPlace.of_edits
  · intro id context
    refine RuleStep.edits_bind RuleStep.edits_get fun tree => ?_
    cases config.target? tree id with
    | none => exact RuleStep.edits_pure _
    | some renamed =>
        exact RuleStep.edits_bind (RuleStep.edits_setName id renamed) fun _ =>
          RuleStep.edits_pure _
  · intro tree edited id context verdict offered ran
    obtain ⟨stays, counted⟩ := apply_ok ran
    exact ⟨stays, counted.keeps_offered offered⟩

namespace Run

/-- Two neighbours that have no kind in common and leave their nodes in place may trade places,
wherever they stand in the list; so the rules that rename by a table may stand in any order. -/
theorem run_swap (options : RunOptions) (context : Context) (tree : Tree) :
    (∀ (front back : List Rule) (first second : Rule),
      first.Apart second → first.InPlace → second.InPlace →
        run (front ++ first :: second :: back) options context tree
          = run (front ++ second :: first :: back) options context tree)
      ∧ ∀ (functions : RenameFunction) (methods : RenameMethod) (types : RenameType)
        (rules : List Rule), [functions.rule, methods.rule, types.rule].Perm rules →
          run [functions.rule, methods.rule, types.rule] options context tree
            = run rules options context tree := by
  constructor
  · intro front back first second apart firstStays secondStays
    have swapped := Pass.alike_swap apart firstStays secondStays back
    exact run_alike (Pass.alike_append front swapped) options context tree
  · intro functions methods types rules perm
    have apart : [functions.rule, methods.rule, types.rule].Pairwise Rule.Apart := by
      simp [Rule.Apart, RenameFunction.rule, RenameMethod.rule, RenameType.rule]
    refine run_alike (Pass.alike_perm perm apart ?_) options context tree
    intro rule member
    simp only [List.mem_cons, List.not_mem_nil, or_false] at member
    rcases member with rfl | rfl | rfl
    · exact functions.inPlace
    · exact methods.inPlace
    · exact types.inPlace

theorem failing_inPlace : SourceUnit.failing.InPlace := by
  apply Rule.InPlace.of_edits SourceUnit.failing_edits
  intro tree edited node context verdict _ ran
  obtain ⟨_, _, _, ends⟩ := run_bind_eq_ok.mp ran
  cases ends

def fToG : RenameFunction :=
  ⟨[("f", "g")]⟩

def renamedCall (rules : List Rule) : Except Stop RunOutcome × Tree :=
  run rules ⟨3, 20⟩ {} (Tree.ofProgram "<?php f();" ((Php.program "<?php f();").toOption.getD []))

theorem run_swap_failing :
    fToG.rule.Apart SourceUnit.failing ∧ fToG.rule.InPlace ∧ SourceUnit.failing.InPlace
      ∧ renamedCall [fToG.rule, SourceUnit.failing]
        = renamedCall [SourceUnit.failing, fToG.rule]
      ∧ ((renamedCall [fToG.rule, SourceUnit.failing]).1.toOption.map fun outcome =>
        (outcome.editingPasses, outcome.log.applications.length, outcome.log.diagnostics.length))
          = some (1, 1, 2)
      ∧ renamedCall [fToG.rule, RenameMethod.rule ⟨[]⟩, RenameType.rule ⟨[]⟩]
        = renamedCall [RenameType.rule ⟨[]⟩, fToG.rule, RenameMethod.rule ⟨[]⟩] := by
  have apart : fToG.rule.Apart SourceUnit.failing := by decide
  have swaps := run_swap ⟨3, 20⟩ {} (Tree.ofProgram "<?php f();"
    ((Php.program "<?php f();").toOption.getD []))
  have perm : [fToG.rule, RenameMethod.rule ⟨[]⟩, RenameType.rule ⟨[]⟩].Perm
      [RenameType.rule ⟨[]⟩, fToG.rule, RenameMethod.rule ⟨[]⟩] :=
    @List.perm_append_comm _ [fToG.rule, RenameMethod.rule ⟨[]⟩] [_]
  exact ⟨apart, fToG.inPlace, failing_inPlace,
    swaps.1 [] [] _ _ apart fToG.inPlace failing_inPlace, by decide +kernel,
    swaps.2 _ _ _ _ perm⟩

end Run

end Codemod
