import Codemod.Proofs.Catalog.Chains
import Codemod.Proofs.Run.Reports
import Codemod.Proofs.Run.Standstill
import Codemod.Proofs.Walk.Preorder

/-!
Nodes that every rule leaves as they are. A run that converged and reported no error has left only
such nodes, as its last pass offered every node that can be reached to all rules of its kind; and over
a tree of such nodes a run takes one pass and reports nothing.
-/

namespace Codemod

open Step

/-- The rule does not accept the node, or what it does there is nothing. -/
def Rule.Rests (rule : Rule) (context : Context) (tree : Tree) (node : NodeId) : Prop :=
  rule.accepts tree.checkpoint node context = .ok false
    ∨ rule.accepts tree.checkpoint node context = .ok true
      ∧ ∃ edited, (rule.apply node context).run tree.checkpoint = (.ok .unchanged, edited)
        ∧ edited.commit = tree.commit

namespace Log

variable {log : Log}

theorem clean_of_report {diagnostic : Diagnostic} (clean : (log.report diagnostic).Clean) :
    log.Clean :=
  fun other member => clean other (List.mem_append_left _ member)

theorem clean_of_reports {diagnostics : List Diagnostic}
    (clean : (diagnostics.foldl report log).Clean) : log.Clean := by
  induction diagnostics generalizing log with
  | nil => exact clean
  | cons diagnostic rest ih => exact clean_of_report (ih clean)

end Log

namespace Pass

def Rests (rules : List Rule) (context : Context) (tree : Tree) (node : NodeId) : Prop :=
  ∀ rule ∈ rules, (tree.kind? node).any rule.kinds.contains → rule.Rests context tree node

variable {rules : List Rule} {rule : Rule} {context : Context} {tree after : Tree} {node : NodeId}
variable {link : Option Link} {anchor : Option Span} {log entries : Log}

theorem applyRule_rests (rests : rule.Rests context tree node) (closed : tree.journal = none)
    (link : Option Link) (anchor : Option Span) (log : Log) :
    applyRule rule context node link anchor tree log = (.unchanged, tree, log) := by
  have attempts := run_attempt rule context node tree.checkpoint
  unfold applyRule
  rcases rests with refused | ⟨accepted, edited, applied, same⟩
  · rw [refused] at attempts
    have opened : tree.checkpoint.commit = tree := Tree.commit_of_closed closed
    rw [attempts]
    dsimp only
    rw [opened]
  · rw [accepted] at attempts
    dsimp only at attempts
    rw [applied] at attempts
    have uncounted : edited.revision = tree.revision := Tree.revision_of_commit same
    rw [attempts]
    dsimp only
    rw [same, Tree.commit_of_closed closed]
    simp [check, uncounted]

/-- Failures are reported as errors, whether the rule itself failed or its answer was refused. -/
theorem rests_of_applyRule (clean : entries.Clean)
    (ran : applyRule rule context node link anchor tree log = (.unchanged, after, entries))
    (same : after.commit = tree.commit) : rule.Rests context tree node := by
  have attempts := run_attempt rule context node tree.checkpoint
  have failing : ∀ {diagnostic : Diagnostic}, diagnostic.isError = true →
      log.report diagnostic = entries → False := by
    rintro diagnostic error rfl
    have warned := clean diagnostic (List.mem_append_right _ List.mem_cons_self)
    rw [error] at warned
    cases warned
  unfold applyRule at ran
  rw [attempts] at ran
  -- A crash, a failure and a verdict that is refused would all have been reported as errors.
  cases accepted : rule.accepts tree.checkpoint node context with
  | error crash =>
      rw [accepted] at ran
      exact (failing rfl (congrArg (·.2.2) ran)).elim
  | ok applies =>
      cases applies with
      | false => exact Or.inl accepted
      | true =>
          rw [accepted] at ran
          dsimp only at ran
          generalize applied : (rule.apply node context).run tree.checkpoint = result at ran
          rcases result with ⟨failure | verdict, edited⟩
          · exact (failing rfl (congrArg (·.2.2) ran)).elim
          · dsimp only at ran
            cases checked : check edited verdict node link with
            | error error =>
                rw [checked] at ran
                refine (failing ?_ (congrArg (·.2.2) ran)).elim
                cases error <;> rfl
            | ok done =>
                rw [checked] at ran
                obtain ⟨rfl, rest⟩ := Prod.mk.inj ran
                obtain ⟨rfl, _⟩ := Prod.mk.inj rest
                exact Or.inr ⟨accepted, edited, applied, same⟩

/-- A log that ends without an error had none before. -/
theorem applyRule_clean
    (clean : (applyRule rule context node link anchor tree log).2.2.Clean) : log.Clean := by
  unfold applyRule at clean
  generalize (attempt rule node context).run tree.checkpoint = result at clean
  rcases result with ⟨failure | _ | verdict, edited⟩
  · exact Log.clean_of_report clean
  · exact clean
  · dsimp only at clean
    cases checked : check edited verdict node link with
    | error error =>
        rw [checked] at clean
        exact Log.clean_of_report clean
    | ok done =>
        rw [checked] at clean
        dsimp only at clean
        split at clean <;> exact clean

theorem offer_rests (rests : Rests rules context tree node) (closed : tree.journal = none)
    (link : Option Link) (anchor : Option Span) (log : Log) :
    offer context link anchor rules node .unchanged tree log = (.unchanged, tree, log) := by
  induction rules with
  | nil => rfl
  | cons rule rest ih =>
      have later := ih fun other member => rests other (List.mem_cons_of_mem rule member)
      unfold offer
      split
      · next offered =>
          rw [applyRule_rests (rests rule List.mem_cons_self offered) closed]
          exact later
      · exact later

theorem offer_clean {verdict : Verdict}
    (clean : (offer context link anchor rules node verdict tree log).2.2.Clean) : log.Clean := by
  induction rules generalizing node verdict tree log with
  | nil => exact clean
  | cons rule rest ih =>
      unfold offer at clean
      split at clean
      · have applied := @applyRule_clean rule context tree node link anchor log
        generalize applyRule rule context node link anchor tree log = answer at clean applied
        rcases answer with ⟨_ | new | _ | nodes, after, entries⟩
        · exact applied (ih clean)
        · dsimp only at clean
          split at clean <;> exact applied (ih clean)
        · exact applied clean
        · exact applied clean
      · exact ih clean

/-- Where a visit says nothing and leaves the revision as it was, the node rests. -/
theorem rests_of_offer (accounts : ∀ rule ∈ rules, rule.Accounts)
    (reverts : ∀ rule ∈ rules, rule.Reverts) (filed : tree.Filed) (closed : tree.journal = none)
    (clean : entries.Clean)
    (ran : offer context link anchor rules node .unchanged tree log = (.unchanged, after, entries))
    (same : after.revision = tree.revision) : Rests rules context tree node ∧ after = tree := by
  induction rules generalizing log with
  | nil =>
      cases ran
      exact ⟨nofun, rfl⟩
  | cons rule rest ih =>
      obtain ⟨firstAccounts, laterAccounts⟩ := List.forall_mem_cons.mp accounts
      obtain ⟨firstReverts, laterReverts⟩ := List.forall_mem_cons.mp reverts
      unfold offer at ran
      split at ran
      · next offered =>
          have told :=
            applyRule_told context link anchor firstAccounts firstReverts filed offered log
          have shut := applyRule_closed rule context node link anchor tree log
          generalize applied : applyRule rule context node link anchor tree log = answer
            at told shut ran
          cases told with
          | @stays middle noted shifts still =>
              have further : Told middle node noted .unchanged
                  (offer context link anchor rest node .unchanged middle noted) :=
                offer_told context link anchor laterAccounts laterReverts (shifts.filed filed) noted
              dsimp only at ran shut
              rw [ran] at further
              -- Neither this rule nor those after it have counted anything.
              have kept : middle.revision = tree.revision := by
                have first := shifts.counts
                cases further with
                | stays later _ => exact Nat.le_antisymm (same ▸ later.counts) first
              have opened : middle = tree := by
                rw [← Tree.commit_of_closed shut, (still kept).1, Tree.commit_of_closed closed]
              subst opened
              obtain ⟨rests, equal⟩ := ih laterAccounts laterReverts ran
              refine ⟨List.forall_mem_cons.mpr ⟨fun _ => ?_, rests⟩, equal⟩
              have ended : (offer context link anchor rest node .unchanged middle noted).2.2.Clean := by
                rw [ran]
                exact clean
              exact rests_of_applyRule (offer_clean ended) applied rfl
          | @replaced middle noted new kind shifts found given call =>
              obtain ⟨last, more, ends, _⟩ := offer_stays context link anchor laterAccounts
                laterReverts (shifts.filed filed) call rfl (.replaced new) noted
              have differs : new ≠ node := by
                rintro rfl
                cases (shifts.kinds found).symm.trans call
                cases given
              dsimp only at ran
              rw [if_neg differs, ends] at ran
              cases ran
      · next refused =>
          obtain ⟨rests, equal⟩ := ih laterAccounts laterReverts ran
          exact ⟨List.forall_mem_cons.mpr ⟨fun offered => absurd offered refused, rests⟩, equal⟩

end Pass

/-- A visitor that leaves its state alone at the nodes of a list ends with it. -/
theorem Visiting.along_of_still {σ : Type} {visit : Visiting σ} {tree : Tree} {list : List NodeId}
    (still : ∀ id ∈ list, ∀ state, (visit id tree state).2.2 = state) (state : σ) :
    visit.along tree list state = state := by
  induction list with
  | nil => rfl
  | cons id rest ih =>
      rw [along, List.foldl_cons, still id List.mem_cons_self]
      exact ih fun other member => still other (List.mem_cons_of_mem id member)

namespace Walk

variable {rules : List Rule} {context : Context}

theorem clean_respected (rules : List Rule) (context : Context) :
    Respected (Pass.visitor rules context)
      (fun before _ after => after.state.Clean → before.state.Clean) where
  refl _ _ := id
  trans first second := first ∘ second
  mark _ _ := id
  limit _ _ := id
  carryOut id edit carried := by
    intro walk clean
    rw [run_carryOut] at clean
    generalize edit.run walk.tree = result at clean
    rcases result with ⟨(error | ⟨size, index⟩) | ⟨⟩, tree⟩ <;> exact clean
  visit _ _ := Pass.offer_clean

/-- The nodes of a list were marked, and each of them rests; nothing else was done. -/
structure Rested (rules : List Rule) (context : Context) (list : List NodeId)
    (before after : Walk Log) : Prop where
  tree : after.tree = before.tree
  marks : ∀ id, after.visited.contains id ↔ before.visited.contains id ∨ id ∈ list
  rests : ∀ id ∈ list, Pass.Rests rules context before.tree id

theorem Rested.append {before middle after : Walk Log} {front back : List NodeId}
    (first : Rested rules context front before middle)
    (second : Rested rules context back middle after) :
    Rested rules context (front ++ back) before after where
  tree := second.tree.trans first.tree
  marks id := by
    rw [second.marks, first.marks, List.mem_append, or_assoc]
  rests := List.forall_mem_append.mpr ⟨first.rests, first.tree ▸ second.rests⟩

section

variable (accounts : ∀ rule ∈ rules, rule.Accounts) (reverts : ∀ rule ∈ rules, rule.Reverts)

include accounts reverts

theorem settle_rests {walk after : Walk Log} {link : Option Link} {current : NodeId}
    {settled : Settled} {left : Nat} (filed : walk.tree.Filed) (closed : walk.tree.journal = none)
    (sits : Sits walk.tree link current) (clean : after.state.Clean)
    (ran : (settle (Pass.visitor rules context) link (left + 1) current).run walk
      = (.ok settled, after)) (same : after.tree.revision = walk.tree.revision) :
    settled = .descend current ∧ after.tree = walk.tree ∧ after.visited = walk.visited
      ∧ Pass.Rests rules context walk.tree current := by
  have told : Pass.Told walk.tree current walk.state .unchanged
      (Pass.answerAt rules context current walk.tree walk.state) :=
    Pass.offer_told context _ _ accounts reverts filed walk.state
  have visits := Pass.run_visitor rules context current walk
  generalize answered : Pass.answerAt rules context current walk.tree walk.state = answer
    at told visits
  cases told with
  | stays shifts still =>
      rw [settle_unchanged visits link left] at ran
      cases ran
      obtain ⟨rests, equal⟩ :=
        Pass.rests_of_offer accounts reverts filed closed clean answered same
      exact ⟨rfl, equal, rfl, rests⟩
  | @replaced tree log new kind shifts found given call =>
      -- A replacement is counted, and nothing takes that back.
      obtain ⟨differ, edited, replaces, files, counted⟩ :=
        replacement_counts filed sits shifts found given call
      rw [settle_replaced visits (Ne.symm differ) replaces left] at ran
      have lasts : ∀ opened : Walk Log, opened.tree = edited →
          (settle (Pass.visitor rules context) link left new).run opened = (.ok settled, after) →
            walk.tree.revision < after.tree.revision := by
        rintro opened rfl goes
        obtain ⟨_, _, runs, firm, _⟩ := settle_firm accounts reverts context
          (files.filed (shifts.filed filed)) (sits_of_kind (files.kinds call) rfl) left
        cases goes.symm.trans runs
        exact Nat.lt_of_lt_of_le counted firm.files.counts
      split at ran
      · cases ran
        exact absurd same (Nat.ne_of_gt counted)
      · exact absurd same (Nat.ne_of_gt (lasts _ rfl ran))

/-- A node that is marked is visited, and then the walk goes down from it. -/
theorem visitNode_rests {walk middle : Walk Log} {link : Option Link} {id : NodeId} {steps : Nat}
    (filed : walk.tree.Filed) (closed : walk.tree.journal = none) (sits : Sits walk.tree link id)
    (clean : middle.state.Clean)
    (ran : (visitNode (Pass.visitor rules context) (steps + 1) id link).run
      { walk with visited := walk.visited.insert id } = (.ok (), middle))
    (same : middle.tree.revision = walk.tree.revision) :
    ∃ visited, Rested rules context [id] walk visited
      ∧ (descend (Pass.visitor rules context) steps id).run visited = (.ok (), middle) := by
  let marked : Walk Log := { walk with visited := walk.visited.insert id }
  rw [visitNode_succ] at ran
  obtain ⟨settled, visited, settles, down⟩ := run_bind_eq_ok.mp ran
  obtain ⟨_, _, runs, firm, rest⟩ :=
    @settle_firm _ accounts reverts context marked link id filed sits cascadeLimit
  cases settles.symm.trans runs
  obtain ⟨_, descends⟩ := visits_firm accounts reverts context steps
  have cleans := (clean_respected rules context).visits steps
  -- What comes after the visit takes no revision back, and no error.
  obtain ⟨grows, kept⟩ : visited.tree.revision ≤ middle.tree.revision ∧ visited.state.Clean := by
    rcases rest with rfl | ⟨node, rfl⟩
    · cases down
      exact ⟨Nat.le_refl _, clean⟩
    · have goes : (descend (Pass.visitor rules context) steps node).run visited = (.ok (), middle) :=
        down
      have further := @descends visited node (firm.files.filed filed)
      have cleaner := cleans.2 node visited
      rw [goes] at further cleaner
      exact ⟨further.files.counts, cleaner clean⟩
  have counts : walk.tree.revision ≤ visited.tree.revision := firm.files.counts
  have still : visited.tree.revision = walk.tree.revision := by omega
  obtain ⟨rfl, tree, marks, rests⟩ := settle_rests accounts reverts (show marked.tree.Filed from filed)
    closed sits kept settles still
  refine ⟨visited, ⟨tree, ?_, List.forall_mem_singleton.mpr rests⟩, down⟩
  intro other
  rw [marks]
  simp [marked, or_comm]

/-- The children of a node from some place on: those before it were met, and nothing that is below
the others. -/
theorem descend_rests {tree : Tree} {ids list : List NodeId} (order : tree.Preorder ids list)
    {walk after : Walk Log} {parent : NodeId} {seen ahead : List (Slot × NodeId)} {steps : Nat}
    (start : walk.tree = tree) (filed : tree.Filed) (closed : tree.journal = none)
    (keeps : ∀ id ∈ parent :: list, tree.Keeps id) (children : tree.children parent = seen ++ ahead)
    (names : ahead.map Prod.snd = ids) (met : ∀ child ∈ seen, walk.visited.contains child.2)
    (unmet : ∀ id ∈ list, ¬ walk.visited.contains id) (nodup : list.Nodup)
    (clean : after.state.Clean)
    (ran : (descend (Pass.visitor rules context) steps parent).run walk = (.ok (), after))
    (same : after.tree.revision = tree.revision) : Rested rules context list walk after := by
  induction order generalizing walk after parent seen ahead steps with
  | nil =>
      rcases steps with _ | steps
      · cases ran
      have none : walk.nextChild? parent = none := by
        apply nextChild?_none
        rw [start, children, List.map_eq_nil_iff.mp names, List.append_nil]
        exact met
      rw [descend, run_bind_ok (run_get walk), none] at ran
      cases ran
      exact ⟨rfl, by simp, List.forall_mem_nil _⟩
  | @cons _ _ below beside _ _ innerIh outerIh =>
      obtain ⟨child, later, rfl, rfl, rfl⟩ := List.map_eq_cons_iff.mp names
      rw [List.forall_mem_cons, List.forall_mem_append] at unmet
      rw [List.nodup_cons, List.mem_append, not_or, List.nodup_append] at nodup
      obtain ⟨fresh, underUnmet, besideUnmet⟩ := unmet
      obtain ⟨⟨notUnder, notBeside⟩, underNodup, besideNodup, disjoint⟩ := nodup
      have next : walk.nextChild? parent = some child := by
        apply nextChild?_of_split (start ▸ children) met fresh
        rw [start]
        exact (keeps parent List.mem_cons_self).named child (by simp [children])
      have held : child ∈ tree.children parent := by simp [children]
      rcases steps with _ | steps
      · cases ran
      rw [descend, run_bind_ok (run_get walk), next] at ran
      dsimp only at ran
      rw [run_bind_ok (run_mark_fresh fresh)] at ran
      obtain ⟨_, middle, visits, rest⟩ := run_bind_eq_ok.mp ran
      rcases steps with _ | steps
      · cases visits
      subst start
      -- The visit of the child and what comes after it have counted nothing.
      have sits := sits_of_child held
      obtain ⟨visiting, descends⟩ := visits_firm accounts reverts context (steps + 1)
      have firm := @visiting { walk with visited := walk.visited.insert child.2 } child.2
        (some ⟨parent, child.1⟩) filed sits
      rw [visits] at firm
      have further := @descends middle parent (firm.files.filed filed)
      have cleaner := ((clean_respected rules context).visits (steps + 1)).2 parent middle
      rw [rest] at further cleaner
      have first : walk.tree.revision ≤ middle.tree.revision := firm.files.counts
      have second : middle.tree.revision ≤ after.tree.revision := further.files.counts
      obtain ⟨visited, here, down⟩ := visitNode_rests accounts reverts filed closed sits
        (cleaner clean) visits (by omega)
      have inner : Rested rules context below visited middle := by
        refine innerIh here.tree ?_ (List.nil_append _).symm rfl (List.forall_mem_nil _) ?_ underNodup
          (cleaner clean) down (by omega)
        · intro id member
          exact keeps id (List.mem_cons_of_mem _ (List.mem_append_left beside member))
        · intro id member
          rw [here.marks, List.mem_singleton, not_or]
          exact ⟨underUnmet id member, fun equal => notUnder (equal ▸ member)⟩
      have visited := here.append inner
      have outer : Rested rules context beside middle after := by
        refine outerIh visited.tree ?_ (children.trans (List.append_cons ..)) rfl ?_ ?_ besideNodup
          clean rest same
        · intro id member
          grind
        · intro other member
          rw [visited.marks]
          grind
        · intro id member
          rw [visited.marks, not_or]
          exact ⟨besideUnmet id member, by grind⟩
      exact visited.append outer

/-- A walk from the root that counted nothing and reported no error has found nothing to do. -/
theorem run_rested {tree : Tree} (tidy : tree.Tidy tree.root) (filed : tree.Filed)
    (closed : tree.journal = none) {steps : Nat} {log : Log} {after : Walk Log}
    (clean : after.state.Clean)
    (ran : run (Pass.visitor rules context) steps tree log tree.root = (.ok (), after))
    (same : after.tree.revision = tree.revision) {id : NodeId} (reached : tree.Reaches id) :
    Pass.Rests rules context tree id := by
  have inside := Tree.contains_of_kind? filed.rooted
  have nodup := tidy.descendants_nodup
  have keeps : ∀ id ∈ tree.descendants tree.root, tree.Keeps id :=
    fun id member => tidy.keeps (Tree.below_of_within member)
  have member := (tidy.mem_descendants inside).mpr reached
  obtain ⟨below, listed, under⟩ := (tidy.preorder inside).single
  obtain ⟨node, found⟩ := Tree.node?_of_contains inside
  let outset : Walk Log := { tree, state := log }
  rw [run, subtree, run_bind_ok (run_get _)] at ran
  dsimp only at ran
  rw [found] at ran
  dsimp only at ran
  rw [run_bind_ok (@run_mark_fresh _ tree.root outset (by simp [outset]))] at ran
  rw [listed] at nodup keeps member
  obtain ⟨fresh, nodup⟩ := List.nodup_cons.mp nodup
  rcases steps with _ | steps
  · cases ran
  obtain ⟨visited, here, down⟩ := visitNode_rests accounts reverts (show outset.tree.Filed from filed)
    closed (sits_of_kind filed.rooted rfl) clean ran same
  have inner : Rested rules context below visited after := by
    refine descend_rests accounts reverts under here.tree filed closed keeps (List.nil_append _).symm
      rfl (List.forall_mem_nil _) ?_ nodup clean down same
    intro id member
    rw [here.marks, List.mem_singleton, not_or]
    exact ⟨by simp [outset], fun equal => fresh (equal ▸ member)⟩
  exact (here.append inner).rests id member

end

end Walk

namespace Run

variable {rules : List Rule} {context : Context} {tree after : Tree}

/-- A run that converged without an error has left no node that a rule would change, if it has left every
node held once. -/
theorem rests_of_converged (accounts : ∀ rule ∈ rules, rule.Accounts)
    (reverts : ∀ rule ∈ rules, rule.Reverts) (filed : tree.Filed) (closed : tree.journal = none)
    {options : RunOptions} {outcome : RunOutcome} (clean : outcome.log.Clean)
    (ran : run rules options context tree = (.ok outcome, after))
    (converged : outcome.converged = true) :
    after.Filed ∧ (after.HeldOnce → ∀ id, after.Reaches id → Pass.Rests rules context after id) := by
  have shut := passes_closed rules options.steps context (max options.maxPasses 1) {} closed
  obtain ⟨ended, made, rfl⟩ := run_eq_ok ran
  rw [made] at shut
  rw [concluded_converged] at converged
  rw [concluded_of_converged converged] at clean
  obtain ⟨filedNow, ⟨log, walk, walked, still, noted⟩, _⟩ :=
    passes_last accounts reverts filed closed made rfl converged
  refine ⟨filedNow, fun held id => ?_⟩
  exact Walk.run_rested accounts reverts (Tree.heldOnce_iff_tidy.mp held) filedNow shut
    (Log.clean_of_reports (noted ▸ clean)) walked (congrArg Tree.revision still)

/-- Over a tree in which every node rests a run takes one pass and reports nothing. -/
theorem run_rests (tidy : tree.Tidy tree.root) (inside : tree.contains tree.root)
    (closed : tree.journal = none)
    (rests : ∀ id, tree.Reaches id → Pass.Rests rules context tree id) {options : RunOptions}
    (enough : 2 * tree.size ≤ options.steps) :
    run rules options context tree = (.ok { passes := 1, converged := true }, tree) := by
  have quiet : ∀ id ∈ tree.descendants tree.root, ∀ log,
      Pass.visit rules context id tree log = (.ok .unchanged, tree, log) := by
    intro id member log
    rw [Pass.visit, Pass.answerAt,
      Pass.offer_rests (rests id ((tidy.mem_descendants inside).mp member)) closed]
  have idle : ∀ id ∈ tree.descendants tree.root, (Pass.visit rules context).IdleAt tree id := by
    intro id member log
    rw [quiet id member log]
    exact ⟨rfl, rfl⟩
  have silent : (Pass.visit rules context).along tree (tree.descendants tree.root) ({} : Log) = {} :=
    Visiting.along_of_still (fun id member log => by rw [quiet id member log]) _
  obtain ⟨walk, walked, passed⟩ := Walk.run_passed tidy inside idle ({} : Log) enough
  rw [Pass.visitor_visit] at walked
  have same : walk.tree = tree := passed.tree
  have state : walk.state = {} := passed.state.trans silent
  have errors : walk.errors = [] := passed.errors
  have limited : walk.cascadeLimited = [] := passed.cascadeLimited
  obtain ⟨left, count⟩ : ∃ left, max options.maxPasses 1 = left + 1 :=
    ⟨max options.maxPasses 1 - 1, by omega⟩
  rw [run, count, passes, walked]
  simp [same, state, Pass.walkDiagnostics, errors, limited]

end Run

end Codemod
