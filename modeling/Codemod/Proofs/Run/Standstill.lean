import Codemod.Proofs.Catalog.Counting
import Codemod.Proofs.Catalog.Levels
import Codemod.Proofs.Run.Fixpoint
import Codemod.Proofs.Tree.Filing

/-!
Passes that change nothing. A pass that leaves the revision as it was leaves the whole tree as it was,
arena and back-references included, and has applied no rule: each application was counted or did
nothing, and where a rule asks for its node to be replaced the node still stands where the walk found
it. So a run of any rules of the catalog that converged has come to a standstill.
-/

namespace Codemod

open Step

-- What a rule did can be taken back, also where it failed.
def Rule.Reverts (rule : Rule) : Prop :=
  ∀ (tree : Tree) (node : NodeId), (tree.kind? node).any rule.kinds.contains → ∀ context,
    tree.SameRollback ((rule.apply node context).run tree).2

theorem Catalog.reverts_of_build {specs : List RuleSpec} {rules : List Rule}
    (built : build specs = .ok rules) : ∀ rule ∈ rules, rule.Reverts := by
  intro rule member tree node offered context
  obtain ⟨spec, _, makes⟩ := makes_of_build built rule member
  obtain ⟨calls, creations⟩ := lowers_of_makes makes
  by_cases builder : spec.id = "new_to_builder"
  · have lowers := creations (by rw [builder]; decide)
    exact (lowers tree node offered context).1.back
  · exact (calls builder tree node offered context).1.back

namespace Pass

/-- An equal revision tells that neither the tree nor the list of applications has changed. -/
def Still (tree : Tree) (log : Log) (after : Tree) (entries : Log) : Prop :=
  after.revision = tree.revision →
    after.commit = tree.commit ∧ entries.applications = log.applications

/-- The node stays and what was done was counted, or a call is to take its place. -/
inductive Told (tree : Tree) (node : NodeId) (log : Log) (verdict : Verdict) :
    Verdict × Tree × Log → Prop
  | stays {after : Tree} {entries : Log} (shifts : tree.Shifts after)
      (still : Still tree log after entries) : Told tree node log verdict (verdict, after, entries)
  | replaced {after : Tree} {entries : Log} {new : NodeId} {kind : Kind} (shifts : tree.Shifts after)
      (found : tree.kind? node = some kind) (given : kind.replaceable)
      (call : after.kind? new = some .methodCall) :
      Told tree node log verdict (.replaced new, after, entries)

variable {tree : Tree} {node : NodeId} (context : Context) (link : Option Link)
variable (anchor : Option Span)

theorem applyRule_told {rule : Rule} (accounts : rule.Accounts) (reverts : rule.Reverts)
    (filed : tree.Filed) (offered : (tree.kind? node).any rule.kinds.contains) (log : Log) :
    Told tree node log .unchanged (applyRule rule context node link anchor tree log) := by
  have idle : ∀ {after : Tree} {entries : Log}, after.commit = tree.commit →
      entries.applications = log.applications →
        Told tree node log .unchanged (.unchanged, after, entries) :=
    fun same noted => .stays (Tree.counted_of_commit same).toShifts fun _ => ⟨same, noted⟩
  -- Whatever fails is rolled back to the tree of the checkpoint.
  have undone : ∀ {edited : Tree}, tree.checkpoint.SameRollback edited →
      edited.rollback.commit = tree.commit := by
    intro edited back
    rw [(back tree.checkpoint_recording).2, Tree.checkpoint_rollback]
    rfl
  have attempts := run_attempt rule context node tree.checkpoint
  have back := reverts tree.checkpoint node offered context
  unfold applyRule
  cases accepted : rule.accepts tree.checkpoint node context with
  | error crash =>
      rw [accepted] at attempts
      rw [attempts]
      exact idle (undone (Tree.sameRollback_respected.refl _)) rfl
  | ok applies =>
      cases applies with
      | false =>
          rw [accepted] at attempts
          rw [attempts]
          exact idle rfl rfl
      | true =>
          rw [accepted] at attempts
          dsimp only at attempts
          generalize ran : (rule.apply node context).run tree.checkpoint = result at attempts back
          rcases result with ⟨failure | verdict, edited⟩
          · rw [attempts]
            exact idle (undone back) rfl
          · rw [attempts]
            dsimp only
            cases checked : check edited verdict node link with
            | error error => exact idle (undone back) rfl
            | ok done =>
                have opened := Tree.counted_of_commit (show tree.checkpoint.commit = tree.commit from rfl)
                have closed := Tree.counted_of_commit (show edited.commit.commit = edited.commit from rfl)
                cases accounts (opened.filed filed) ran with
                | unchanged counted =>
                    have whole := (opened.trans counted).trans closed
                    refine .stays whole.toShifts ?_
                    intro same
                    rcases whole.told with kept | more
                    · have uncounted : edited.revision = tree.revision := same
                      exact ⟨kept, by simp [uncounted]⟩
                    · exact absurd same (Nat.ne_of_gt more)
                | replaced shifts found given call =>
                    exact .replaced ((opened.toShifts.trans shifts).trans closed.toShifts) found given
                      call

theorem kind_of_offered {kinds : List Kind} (offered : (tree.kind? node).any kinds.contains) :
    ∃ kind, tree.kind? node = some kind := by
  cases found : tree.kind? node with
  | none => simp [found] at offered
  | some kind => exact ⟨kind, rfl⟩

theorem Still.trans {middle after : Tree} {log entries last : Log} (first : Still tree log middle entries)
    (second : Still middle entries after last) (early : tree.revision ≤ middle.revision)
    (late : middle.revision ≤ after.revision) : Still tree log after last := by
  intro same
  obtain ⟨kept, noted⟩ := first (by omega)
  obtain ⟨still, also⟩ := second (by omega)
  exact ⟨still.trans kept, also.trans noted⟩

section

variable {rules : List Rule} (accounts : ∀ rule ∈ rules, rule.Accounts)
variable (reverts : ∀ rule ∈ rules, rule.Reverts)

include accounts reverts

/-- A node that no rule replaces, such as a call that took the place of another node, stays. -/
theorem offer_stays {kind : Kind} (filed : tree.Filed) (found : tree.kind? node = some kind)
    (given : kind.replaceable = false) (verdict : Verdict) (log : Log) :
    ∃ after entries, offer context link anchor rules node verdict tree log = (verdict, after, entries)
      ∧ tree.Shifts after ∧ Still tree log after entries := by
  induction rules generalizing tree log with
  | nil => exact ⟨tree, log, rfl, (Tree.counted_refl tree).toShifts, fun _ => ⟨rfl, rfl⟩⟩
  | cons rule rest ih =>
      obtain ⟨firstAccounts, laterAccounts⟩ := List.forall_mem_cons.mp accounts
      obtain ⟨firstReverts, laterReverts⟩ := List.forall_mem_cons.mp reverts
      unfold offer
      split
      · next offered =>
          have told := applyRule_told context link anchor firstAccounts firstReverts filed offered log
          generalize applyRule rule context node link anchor tree log = answer at told
          cases told with
          | stays shifts still =>
              obtain ⟨after, entries, ends, further, also⟩ :=
                ih laterAccounts laterReverts (shifts.filed filed) (shifts.kinds found) _
              exact ⟨after, entries, ends, shifts.trans further,
                still.trans also shifts.counts further.counts⟩
          | replaced shifts read replaceable call =>
              cases found.symm.trans read
              rw [given] at replaceable
              cases replaceable
      · exact ih laterAccounts laterReverts filed found log

theorem offer_told (filed : tree.Filed) (log : Log) :
    Told tree node log .unchanged (offer context link anchor rules node .unchanged tree log) := by
  induction rules generalizing tree log with
  | nil => exact .stays (Tree.counted_refl tree).toShifts fun _ => ⟨rfl, rfl⟩
  | cons rule rest ih =>
      obtain ⟨firstAccounts, laterAccounts⟩ := List.forall_mem_cons.mp accounts
      obtain ⟨firstReverts, laterReverts⟩ := List.forall_mem_cons.mp reverts
      unfold offer
      split
      · next offered =>
          have told := applyRule_told context link anchor firstAccounts firstReverts filed offered log
          generalize applyRule rule context node link anchor tree log = answer at told
          cases told with
          | @stays after entries shifts still =>
              have further := ih laterAccounts laterReverts (shifts.filed filed) entries
              dsimp only
              generalize offer context link anchor rest node .unchanged after entries = ended at further
              cases further with
              | stays later also =>
                  exact .stays (shifts.trans later) (still.trans also shifts.counts later.counts)
              | replaced later read replaceable call =>
                  obtain ⟨former, kinds⟩ := kind_of_offered offered
                  cases (shifts.kinds kinds).symm.trans read
                  exact .replaced (shifts.trans later) kinds replaceable call
          | @replaced after entries new kind shifts read replaceable call =>
              obtain ⟨last, noted, ends, further, _⟩ := offer_stays context link anchor laterAccounts
                laterReverts (shifts.filed filed) call rfl (.replaced new) entries
              -- The rules that are left are offered the replacement, which none of them replaces.
              have differs : new ≠ node := by
                rintro rfl
                cases (shifts.kinds read).symm.trans call
                cases replaceable
              dsimp only
              rw [if_neg differs, ends]
              exact .replaced (shifts.trans further) read replaceable (further.kinds call)
      · exact ih laterAccounts laterReverts filed log

end

end Pass

namespace Walk

structure Firm (before after : Walk Log) : Prop where
  files : before.tree.Files after.tree
  still : Pass.Still before.tree before.state after.tree after.state

theorem firm_refl (walk : Walk Log) : Firm walk walk :=
  ⟨(Tree.counted_refl walk.tree).toFiles, fun _ => ⟨rfl, rfl⟩⟩

theorem Firm.trans {before middle after : Walk Log} (first : Firm before middle)
    (second : Firm middle after) : Firm before after :=
  ⟨first.files.trans second.files,
    first.still.trans second.still first.files.counts second.files.counts⟩

theorem Firm.bind {α β : Type} {before : Walk Log} {step : Walking Log α}
    {next : α → Walking Log β} (first : Firm before (step.run before).2)
    (second : ∀ value middle, step.run before = (.ok value, middle) → Firm before middle →
      Firm middle ((next value).run middle).2) : Firm before ((step >>= next).run before).2 := by
  generalize ran : step.run before = result at first
  rcases result with ⟨stop | value, middle⟩
  · rw [run_bind_error ran]
    exact first
  · rw [run_bind_ok ran]
    exact first.trans (second value middle ran first)

/-- Marks are no concern of the tree. -/
theorem mark_firm (walk : Walk Log) (id : NodeId) : Firm walk ((mark id).run walk).2
    ∧ ((mark id).run walk).2.tree = walk.tree := by
  rw [run_mark]
  split
  · exact ⟨firm_refl walk, rfl⟩
  · exact ⟨⟨(firm_refl walk).files, (firm_refl walk).still⟩, rfl⟩

/-- A node that rules may have replaced stands in the slot that the walk has found it in. -/
def Sits (tree : Tree) (link : Option Link) (node : NodeId) : Prop :=
  ∀ kind, tree.kind? node = some kind → kind.replaceable →
    ∃ place, link = some place ∧ (place.slot, node) ∈ tree.children place.parent

theorem sits_of_child {tree : Tree} {parent node : NodeId} {slot : Slot}
    (held : (slot, node) ∈ tree.children parent) : Sits tree (some ⟨parent, slot⟩) node :=
  fun _ _ _ => ⟨⟨parent, slot⟩, rfl, held⟩

theorem sits_of_kind {tree : Tree} {link : Option Link} {node : NodeId} {kind : Kind}
    (found : tree.kind? node = some kind) (given : kind.replaceable = false) : Sits tree link node := by
  intro other read replaceable
  cases found.symm.trans read
  rw [given] at replaceable
  cases replaceable

/-- The walk puts the call in the place of a node that still stands there. -/
theorem replaceAt_sits {tree : Tree} {place : Link} {old new : NodeId} {kind : Kind}
    (filed : tree.Filed) (held : (place.slot, old) ∈ tree.children place.parent)
    (found : tree.kind? old = some kind) (given : kind.replaceable)
    (call : tree.kind? new = some .methodCall) (differ : old ≠ new) :
    ∃ after, (Edit.replaceAt (some place) old new).run tree = (.ok (), after) ∧ tree.Files after
      ∧ tree.revision < after.revision := by
  obtain ⟨shape, shaped, child⟩ := Tree.shape?_of_child held
  obtain ⟨storage, holds, member⟩ := Shape.storage?_of_child child
  obtain ⟨filled, replaced⟩ := Storage.replace?_of_mem member new
  have change : storage.Change place.slot filled [old] [new] := .replaced differ replaced
  have inside : ∀ {id kind}, tree.kind? id = some kind → tree.contains id := by
    intro id kind read
    obtain ⟨shape, present, _⟩ := Option.map_eq_some_iff.mp read
    exact Tree.contains_of_shape? present
  refine ⟨_, Edit.run_replaceAt shaped holds differ replaced (inside found) (inside call), ?_, ?_⟩
  · apply Tree.files_refill shaped holds change
    intro id enters
    cases List.mem_singleton.mp enters
    exact Tree.suits_of_free found (Kind.free_of_replaceable given _) (filed.suits held) new
  · exact Nat.lt_succ_of_le (Tree.revision_respected.refill shaped holds change _ _)

/-- The replacement that rules have built is a call, and no kind that is replaceable is one. -/
theorem replacement_counts {before tree : Tree} {link : Option Link} {current new : NodeId} {kind : Kind}
    (filed : before.Filed) (sits : Sits before link current) (shifts : before.Shifts tree)
    (found : before.kind? current = some kind) (given : kind.replaceable)
    (call : tree.kind? new = some .methodCall) :
    current ≠ new ∧ ∃ after, (Edit.replaceAt link current new).run tree = (.ok (), after)
      ∧ tree.Files after ∧ before.revision < after.revision := by
  obtain ⟨place, rfl, held⟩ := sits kind found given
  have differ : current ≠ new := by
    rintro rfl
    cases (shifts.kinds found).symm.trans call
    cases given
  have stands := shifts.stays held found (Kind.stays_of_replaceable given)
  obtain ⟨after, replaces, files, more⟩ := replaceAt_sits (shifts.filed filed) stands
    (shifts.kinds found) given call differ
  exact ⟨differ, after, replaces, files, Nat.lt_of_le_of_lt shifts.counts more⟩

section

variable {rules : List Rule} (accounts : ∀ rule ∈ rules, rule.Accounts)
variable (reverts : ∀ rule ∈ rules, rule.Reverts) (context : Context)

include accounts reverts

theorem settle_firm {walk : Walk Log} {link : Option Link} {current : NodeId}
    (filed : walk.tree.Filed) (sits : Sits walk.tree link current) (left : Nat) :
    ∃ settled after,
      (settle (Pass.visitor rules context) link left current).run walk = (.ok settled, after)
      ∧ Firm walk after ∧ (settled = .done ∨ ∃ node, settled = .descend node) := by
  induction left generalizing walk current with
  | zero =>
      refine ⟨_, _, rfl, ?_, Or.inr ⟨current, rfl⟩⟩
      exact ⟨(firm_refl walk).files, (firm_refl walk).still⟩
  | succ left ih =>
      have told : Pass.Told walk.tree current walk.state .unchanged
          (Pass.answerAt rules context current walk.tree walk.state) :=
        Pass.offer_told context _ _ accounts reverts filed walk.state
      have visits := Pass.run_visitor rules context current walk
      generalize Pass.answerAt rules context current walk.tree walk.state = answer at told visits
      cases told with
      | stays shifts still =>
          exact ⟨_, _, settle_unchanged visits link left, ⟨shifts.toFiles, still⟩,
            Or.inr ⟨current, rfl⟩⟩
      | @replaced tree log new kind shifts found given call =>
          obtain ⟨differ, edited, replaces, files, counted⟩ :=
            replacement_counts filed sits shifts found given call
          have firm : ∀ visited, Firm walk
              { walk with tree := edited, state := log, changes := walk.changes + 1, visited } :=
            fun _ => ⟨shifts.toFiles.trans files, fun same => absurd same (Nat.ne_of_gt counted)⟩
          rw [settle_replaced visits (Ne.symm differ) replaces left]
          -- What took the place is settled in turn, unless it was visited before.
          by_cases seen : walk.visited.contains new
          · rw [if_pos seen]
            exact ⟨_, _, rfl, firm _, Or.inl rfl⟩
          · rw [if_neg seen]
            have marked := firm (walk.visited.insert new)
            obtain ⟨settled, after, runs, further, rest⟩ :=
              ih (marked.files.filed filed) (sits_of_kind (files.kinds call) rfl)
            exact ⟨settled, after, runs, marked.trans further, rest⟩

theorem visits_firm (steps : Nat) :
    (∀ {walk : Walk Log} {id : NodeId} {link : Option Link}, walk.tree.Filed →
        Sits walk.tree link id →
          Firm walk ((visitNode (Pass.visitor rules context) steps id link).run walk).2)
      ∧ ∀ {walk : Walk Log} {parent : NodeId}, walk.tree.Filed →
          Firm walk ((descend (Pass.visitor rules context) steps parent).run walk).2 := by
  -- The two recursions call each other with fewer steps, so they are followed together.
  induction steps with
  | zero => exact ⟨fun _ _ => firm_refl _, fun _ => firm_refl _⟩
  | succ steps ih =>
      obtain ⟨visitIh, descendIh⟩ := ih
      constructor
      · intro walk id link filed sits
        obtain ⟨settled, after, settles, firm, rest⟩ :=
          settle_firm accounts reverts context filed sits cascadeLimit
        rw [visitNode, run_bind_ok settles]
        rcases rest with rfl | ⟨node, rfl⟩
        · exact firm
        · exact firm.trans (descendIh (firm.files.filed filed))
      · intro walk parent filed
        rw [descend, run_bind_ok (run_get walk)]
        cases next : walk.nextChild? parent with
        | none => exact firm_refl walk
        | some child =>
            have held : child ∈ walk.tree.children parent := List.mem_of_find?_eq_some next
            obtain ⟨marks, still⟩ := mark_firm walk child.2
            apply marks.bind
            intro _ marked ran _
            rw [ran] at still
            rw [← still] at held filed
            apply (visitIh filed (sits_of_child held)).bind
            intro _ visited _ firm
            exact descendIh (firm.files.filed filed)

/-- A walk from the program at the root. -/
theorem run_firm (steps : Nat) {tree : Tree} (filed : tree.Filed) (log : Log) :
    Firm { tree, state := log }
      (Walk.run (Pass.visitor rules context) steps tree log tree.root).2 := by
  obtain ⟨shape, found, _⟩ := Option.map_eq_some_iff.mp filed.rooted
  obtain ⟨node, present, _⟩ := Option.map_eq_some_iff.mp found
  rw [Walk.run, subtree, run_bind_ok (run_get _)]
  dsimp only
  rw [present]
  obtain ⟨marks, still⟩ := mark_firm { tree, state := log } tree.root
  apply marks.bind
  intro _ marked ran _
  have same : marked.tree = tree := by
    rw [ran] at still
    exact still
  have program : marked.tree.kind? tree.root = some .program := by
    rw [same]
    exact filed.rooted
  exact (visits_firm accounts reverts context steps).1 (same ▸ filed) (sits_of_kind program rfl)

end

end Walk

namespace Run

variable {rules : List Rule} {steps : Nat} {context : Context}

section

variable (accounts : ∀ rule ∈ rules, rule.Accounts) (reverts : ∀ rule ∈ rules, rule.Reverts)

include accounts reverts

/-- Passes that leave the revision as it was have applied no rule. -/
theorem passes_firm {left : Nat} {outcome ended : RunOutcome} {tree after : Tree}
    (filed : tree.Filed) (ran : passes rules steps context left outcome tree = (.ok ended, after)) :
    tree.revision ≤ after.revision ∧ (after.revision = tree.revision →
      ended.log.applications = outcome.log.applications) := by
  induction left generalizing outcome tree with
  | zero =>
      cases ran
      exact ⟨Nat.le_refl _, fun _ => rfl⟩
  | succ left ih =>
      have firm := Walk.run_firm accounts reverts context steps filed outcome.log
      rw [passes] at ran
      generalize Walk.run (Pass.visitor rules context) steps tree outcome.log tree.root = result
        at ran firm
      rcases result with ⟨stop | ⟨⟩, walk⟩
      · cases ran
      · have grows : tree.revision ≤ walk.tree.revision := firm.files.counts
        have noted : walk.tree.revision = tree.revision →
            walk.state.applications = outcome.log.applications :=
          fun same => (firm.still same).2
        dsimp only at ran
        split at ran
        · cases ran
          refine ⟨grows, fun same => ?_⟩
          rw [applications_reports, noted same]
        · next changed =>
            have filedNow : walk.tree.Filed := firm.files.filed filed
            obtain ⟨further, _⟩ := ih filedNow ran
            exact ⟨Nat.le_trans grows further, fun same => absurd (by omega) changed⟩

/-- The last pass of a run that converged changed nothing. -/
theorem passes_last {left : Nat} {outcome ended : RunOutcome} {tree after : Tree}
    (filed : tree.Filed) (closed : tree.journal = none)
    (ran : passes rules steps context left outcome tree = (.ok ended, after))
    (pending : outcome.converged = false) (converged : ended.converged = true) :
    after.Filed
      ∧ (∃ log walk, Walk.run (Pass.visitor rules context) steps after log after.root = (.ok (), walk)
        ∧ walk.tree = after ∧ ended.log = (Pass.walkDiagnostics walk).foldl Log.report walk.state)
      ∧ ∃ count earlier, passes rules steps context count outcome tree = (.ok earlier, after)
        ∧ earlier.passes = outcome.passes + count ∧ ended.passes = earlier.passes + 1 := by
  induction left generalizing outcome tree with
  | zero =>
      cases ran
      rw [pending] at converged
      cases converged
  | succ left ih =>
      have firm := Walk.run_firm accounts reverts context steps filed outcome.log
      have shut := (closed_respected rules context).run steps tree outcome.log tree.root closed
      rw [passes] at ran
      generalize walked : Walk.run (Pass.visitor rules context) steps tree outcome.log tree.root
        = result at ran firm shut
      rcases result with ⟨stop | ⟨⟩, walk⟩
      · cases ran
      · dsimp only at ran
        split at ran
        · next same =>
            cases ran
            -- Outside a transaction a tree is its own commit, so it is the same tree.
            have still : walk.tree = tree := by
              obtain ⟨kept, _⟩ := firm.still same
              rw [← Tree.commit_of_closed shut, kept, Tree.commit_of_closed closed]
            refine ⟨still ▸ filed, ⟨outcome.log, walk, ?_, rfl, rfl⟩, 0, outcome, ?_, rfl, rfl⟩
            · rw [still]
              exact walked
            · rw [still]
              rfl
        · next changed =>
            obtain ⟨kept, settled, count, earlier, passed, counts, ends⟩ :=
              ih (firm.files.filed filed) shut ran pending
            refine ⟨kept, settled, count + 1, earlier, ?_, ?_, ends⟩
            · rw [passes, walked]
              dsimp only
              rw [if_neg changed]
              exact passed
            · rw [counts]
              dsimp only
              omega

end

/-- A run of rules of the catalog that converged on the tree of a program stands still. Its last pass
left the tree as it was, in all its parts; and the same rules, run again on that tree with any number of
passes, take one, apply nothing and leave it as it is. -/
theorem catalog_run_stands_still {source : String} {program : List Php.Statement}
    {specs : List RuleSpec} (built : Catalog.build specs = .ok rules) (options : RunOptions)
    {outcome : RunOutcome} {after : Tree}
    (ran : run rules options context (Tree.ofProgram source program) = (.ok outcome, after))
    (converged : outcome.converged = true) :
    (∃ earlier, passes rules options.steps context (outcome.passes - 1) {}
        (Tree.ofProgram source program) = (.ok earlier, after) ∧ earlier.passes + 1 = outcome.passes)
      ∧ ∀ maxPasses, ∃ again, run rules ⟨maxPasses, options.steps⟩ context after = (.ok again, after)
        ∧ again.passes = 1 ∧ again.editingPasses = 0 ∧ again.converged = true
        ∧ again.log.applications = [] := by
  have accounts := Catalog.accounts_of_build built
  have reverts := Catalog.reverts_of_build built
  have fresh := Tree.ofProgram_read source program
  have shut := passes_closed rules options.steps context (max options.maxPasses 1) {} fresh.journal
  obtain ⟨ended, made, rfl⟩ := run_eq_ok ran
  rw [made] at shut
  rw [concluded_converged] at converged
  obtain ⟨filed, ⟨log, walk, walked, still, _⟩, count, earlier, passed, counted, last⟩ :=
    passes_last accounts reverts (Tree.ofProgram_filed source program) fresh.journal made rfl converged
  have starts : earlier.passes = count := counted.trans (Nat.zero_add count)
  constructor
  · rw [concluded_passes, last, starts, Nat.add_sub_cancel]
    exact ⟨earlier, passed, by omega⟩
  · intro maxPasses
    obtain ⟨left, more⟩ : ∃ left, max maxPasses 1 = left + 1 := ⟨max maxPasses 1 - 1, by omega⟩
    obtain ⟨again, runs, once, edited, stays⟩ :=
      passes_settled ⟨log, walk, walked, by rw [still]⟩ shut
    have applied := (passes_firm accounts reverts filed runs).2 rfl
    refine ⟨again, ?_, once, edited, stays, applied⟩
    rw [run_eq, more, runs]
    dsimp only [Except.map]
    rw [concluded_of_converged stays]

-- A creation of `A` that has no arguments stays one of `A`, though the rule goes on accepting it,
-- and a chain from `a` is passed to `to` argument by argument.
def chainSpecs : List RuleSpec :=
  [⟨"new_to_builder",
      [("class", .string "A"), ("replacement", .string "A"), ("method", .string "make")]⟩,
    ⟨"extract_chain_arguments", [("method", .string "to"), ("sources", .list ["a", "b"])]⟩]

def chainRules : List Rule :=
  (Catalog.build chainSpecs).toOption.getD []

def chainSource : String :=
  "<?php f(new A);$m->to(B::a(1)->b(2));"

def chainProgram : List Php.Statement :=
  [.other ⟨0, 5⟩,
    .expression ⟨6, 15⟩ (.functionCall ⟨6, 14⟩ (.identifier ⟨6, 7⟩) (.mk ⟨7, 14⟩
      [.positional ⟨8, 13⟩ false (.instantiation ⟨8, 13⟩ (.identifier ⟨12, 13⟩) none)])),
    .expression ⟨15, 37⟩ (.methodCall ⟨15, 36⟩ (.variable ⟨15, 17⟩) (.identifier ⟨19, 21⟩)
      (.mk ⟨21, 36⟩ [.positional ⟨22, 35⟩ false (.methodCall ⟨22, 35⟩
        (.staticCall ⟨22, 29⟩ (.identifier ⟨22, 23⟩) (.identifier ⟨25, 26⟩) (.mk ⟨26, 29⟩
          [.positional ⟨27, 28⟩ false (.literal ⟨27, 28⟩)]))
        (.identifier ⟨31, 32⟩) (.mk ⟨32, 35⟩
          [.positional ⟨33, 34⟩ false (.literal ⟨33, 34⟩)]) false)]) false)]

def chainRun : Except Stop RunOutcome × Tree :=
  run chainRules {} {} (Tree.ofProgram chainSource chainProgram)

/-- The first pass flattens the chain, and the second changes nothing. -/
theorem catalog_run_stands_still_flattened : Catalog.build chainSpecs = .ok chainRules
    ∧ ∃ outcome after, chainRun = (.ok outcome, after) ∧ outcome.passes = 2
      ∧ outcome.editingPasses = 1 ∧ outcome.converged = true
      ∧ (∃ earlier, passes chainRules 1000000 {} 1 {} (Tree.ofProgram chainSource chainProgram)
        = (.ok earlier, after) ∧ earlier.passes = 1)
      ∧ ∃ again, run chainRules {} {} after = (.ok again, after) ∧ again.passes = 1
        ∧ again.editingPasses = 0 ∧ again.converged = true ∧ again.log.applications = [] := by
  have built : Catalog.build chainSpecs = .ok chainRules := Catalog.build_getD (by decide +kernel)
  have counts : (chainRun.1.toOption.map fun outcome =>
      (outcome.passes, outcome.editingPasses, outcome.converged)) = some (2, 1, true) := by
    decide +kernel
  generalize ran : chainRun = result at counts
  rcases result with ⟨stop | outcome, after⟩
  · cases counts
  · obtain ⟨twice, edited, converged⟩ : outcome.passes = 2 ∧ outcome.editingPasses = 1
        ∧ outcome.converged = true := by
      simpa [Except.toOption] using counts
    obtain ⟨⟨earlier, passed, once⟩, again⟩ := catalog_run_stands_still built {} ran converged
    rw [twice] at passed once
    exact ⟨built, outcome, after, rfl, twice, edited, converged,
      ⟨earlier, passed, Nat.succ.inj once⟩, again 10⟩

end Run

end Codemod
