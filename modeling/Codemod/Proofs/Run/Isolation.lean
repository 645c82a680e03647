import Codemod.Proofs.Run.Application
import Codemod.Proofs.Walk.Pair

/-!
A rule that commits nothing is invisible to the others. The offers of a run are the nodes that it
hands to rules, with the slot and the tree at that moment. If at every offer to one rule the attempt
does not apply, fails, or has its verdict refused, then the run ends as it does without that rule,
but for the diagnostics that carry the rule's id.
-/

namespace Codemod

/-- A node handed to a rule. The slot is that of the node the visit began with. -/
structure Offer where
  ruleId : String
  node : NodeId
  link : Option Link
  /-- The tree at that moment, without its journal. -/
  tree : Tree

namespace Pass

def offers (context : Context) (link : Option Link) (anchor : Option Span) :
    List Rule → NodeId → Tree → List Offer
  | [], _, _ => []
  | rule :: rest, current, tree =>
      if (tree.kind? current).any rule.kinds.contains then
        ⟨rule.id, current, link, tree.commit⟩ ::
          match applyRule rule context current link anchor tree {} with
          | (.unchanged, tree, _) => offers context link anchor rest current tree
          | (.replaced new, tree, _) => offers context link anchor rest new tree
          | _ => []
      else offers context link anchor rest current tree

def offersAt (rules : List Rule) (context : Context) (node : NodeId) (tree : Tree) : List Offer :=
  offers context (tree.parent? node) (tree.anchor? node) rules node tree

-- The visitor of a pass, writing down the offers in place of the log.
def recorder (rules : List Rule) (context : Context) : Visitor (List Offer) := fun node => do
  let walk ← get
  let tree := walk.tree
  let (verdict, edited, _) :=
    offer context (tree.parent? node) (tree.anchor? node) rules node .unchanged tree {}
  set { walk with tree := edited, state := walk.state ++ offersAt rules context node tree }
  return verdict

/-- An attempt of the rule that leaves nothing to commit: the rule does not apply, or it edits and
then fails, or it edits and gives a verdict that is refused. -/
def Fruitless (rule : Rule) (context : Context) (offer : Offer) : Prop :=
  let (result, edited) := (attempt rule offer.node context).run offer.tree.checkpoint
  match result with
  | .ok none => True
  | .error _ => ∃ operations, edited = offer.tree.checkpoint.edited operations
  | .ok (some verdict) => (∃ operations, edited = offer.tree.checkpoint.edited operations)
      ∧ check edited verdict offer.node offer.link ≠ .ok ()

end Pass

def Run.offers (rules : List Rule) (steps : Nat) (context : Context) : Nat → Tree → List Offer
  | 0, _ => []
  | left + 1, tree =>
      match Walk.run (Pass.recorder rules context) steps tree [] tree.root with
      | (.error _, walk) => walk.state
      | (.ok (), walk) =>
          if walk.tree.revision = tree.revision then walk.state
          else walk.state ++ offers rules steps context left walk.tree

def Log.without (log : Log) (id : String) : Log :=
  { log with diagnostics := log.diagnostics.filter fun diagnostic => diagnostic.ruleId ≠ some id }

theorem Log.without_report_other {log : Log} {diagnostic : Diagnostic} {id : String}
    (other : diagnostic.ruleId ≠ some id) :
    (log.report diagnostic).without id = (log.without id).report diagnostic := by
  simp [Log.report, Log.without, other]

theorem Log.without_report_own {log : Log} {diagnostic : Diagnostic} {id : String}
    (own : diagnostic.ruleId = some id) : (log.report diagnostic).without id = log.without id := by
  simp [Log.report, Log.without, own]

def RunOutcome.without (outcome : RunOutcome) (id : String) : RunOutcome :=
  { outcome with log := outcome.log.without id }

namespace Pass

section

variable (rule : Rule) (context : Context) (node : NodeId) (link : Option Link)
variable (anchor : Option Span) {id : String}

/-- A fruitless attempt leaves the tree as it was, and at most one more diagnostic of its own. -/
theorem applyRule_fruitless {tree : Tree} (log : Log)
    (fruitless : Fruitless rule context ⟨rule.id, node, link, tree.commit⟩) :
    ∃ after : Log, applyRule rule context node link anchor tree log
        = (.unchanged, tree.commit, after) ∧ after.without rule.id = log.without rule.id := by
  have start : tree.commit.checkpoint = tree.checkpoint := rfl
  simp only [Fruitless, start] at fruitless
  unfold applyRule
  generalize ran : (attempt rule node context).run tree.checkpoint = result at fruitless
  rcases result with ⟨failure | _ | verdict, edited⟩
  · obtain ⟨operations, rfl⟩ := fruitless
    dsimp only
    rw [Tree.rollback_edited]
    exact ⟨_, rfl, Log.without_report_own rfl⟩
  · rw [attempt_declined rule context node ran]
    exact ⟨log, rfl, rfl⟩
  · obtain ⟨⟨operations, rfl⟩, refused⟩ := fruitless
    dsimp only at refused ⊢
    cases checked : check (tree.checkpoint.edited operations) verdict node link with
    | error error =>
        dsimp only
        rw [Tree.rollback_edited]
        exact ⟨_, rfl, Log.without_report_own rfl⟩
    | ok done => exact absurd checked refused

/-- Answers to an offer that differ in the journal, with related logs. -/
structure Agree (S : Log → Log → Prop) (left right : Verdict × Tree × Log) : Prop where
  verdict : left.1 = right.1
  tree : left.2.1.commit = right.2.1.commit
  log : S left.2.2 right.2.2

def SameWithout (id : String) (log other : Log) : Prop :=
  log.without id = other

theorem applyRule_foreign {tree : Tree} {log otherLog : Log} (foreign : rule.id ≠ id)
    (logs : SameWithout id log otherLog) :
    SameWithout id (applyRule rule context node link anchor tree log).2.2
      (applyRule rule context node link anchor tree otherLog).2.2 := by
  have named : some rule.id ≠ some id := fun same => foreign (Option.some.inj same)
  cases logs
  unfold applyRule
  rcases (attempt rule node context).run tree.checkpoint with ⟨failure | _ | verdict, edited⟩
  · exact Log.without_report_other named
  · rfl
  · dsimp only
    cases check edited verdict node link with
    | error error => exact Log.without_report_other named
    | ok done =>
        dsimp only
        split <;> rfl

end

def Stable (S : Log → Log → Prop) (context : Context) (rule : Rule) : Prop :=
  ∀ {node link anchor tree log otherLog}, S log otherLog →
    S (applyRule rule context node link anchor tree log).2.2
      (applyRule rule context node link anchor tree otherLog).2.2

theorem kind?_of_commit {tree other : Tree} (same : tree.commit = other.commit) (id : NodeId) :
    tree.kind? id = other.kind? id := by
  simp only [Tree.kind?, Tree.shape?, Tree.node?, Tree.nodes_of_commit same]

def HandsOn : Verdict → NodeId → NodeId → Prop
  | .unchanged, current, next => next = current
  | .replaced new, _, next => next = new
  | .deleted, _, _ | .inserted _, _, _ => False

section

variable (context : Context) (link : Option Link) (anchor : Option Span)
variable {S : Log → Log → Prop} {rule : Rule}

theorem applyRule_agree (node : NodeId) {tree other : Tree} {log otherLog : Log}
    (stable : Stable S context rule) (trees : tree.commit = other.commit) (logs : S log otherLog) :
    Agree S (applyRule rule context node link anchor tree log)
      (applyRule rule context node link anchor other otherLog) := by
  rw [applyRule_of_commit rule context node link anchor trees]
  obtain ⟨verdicts, after⟩ := applyRule_log rule context node link anchor other log otherLog
  exact ⟨verdicts, congrArg Tree.commit after, stable logs⟩

/-- The answer to an offer is that of the first rule, if it hands nothing on, or that of the
others. -/
theorem offer_cons_agree {rest otherRest : List Rule} {current : NodeId} {tree other : Tree}
    {log otherLog : Log} (trees : tree.commit = other.commit)
    (first : Agree S (applyRule rule context current link anchor tree log)
      (applyRule rule context current link anchor other otherLog))
    (passed : (tree.kind? current).any rule.kinds.contains = false → ∀ verdict,
      Agree S (offer context link anchor rest current verdict tree log)
        (offer context link anchor otherRest current verdict other otherLog))
    (answered : (tree.kind? current).any rule.kinds.contains →
      let left := applyRule rule context current link anchor tree log
      let right := applyRule rule context current link anchor other otherLog
      ∀ next verdict, HandsOn left.1 current next →
        Agree S (offer context link anchor rest next verdict left.2.1 left.2.2)
          (offer context link anchor otherRest next verdict right.2.1 right.2.2))
    (verdict : Verdict) :
    Agree S (offer context link anchor (rule :: rest) current verdict tree log)
      (offer context link anchor (rule :: otherRest) current verdict other otherLog) := by
  unfold offer
  rw [← kind?_of_commit trees]
  split
  · next offered =>
      have later := answered offered
      generalize applyRule rule context current link anchor tree log = left at first later
      generalize applyRule rule context current link anchor other otherLog = right at first later
      rcases left with ⟨answer, after, entries⟩
      rcases right with ⟨_, otherAfter, otherEntries⟩
      obtain ⟨rfl, trees, logs⟩ := first
      cases answer with
      | unchanged => exact later current verdict rfl
      | replaced new =>
          dsimp only
          split
          · next same => exact later current verdict same.symm
          · exact later new (.replaced new) rfl
      | deleted => exact ⟨rfl, trees, logs⟩
      | inserted nodes => exact ⟨rfl, trees, logs⟩
  · next skipped => exact passed (Bool.eq_false_iff.mpr skipped) verdict

theorem offer_agree (rules : List Rule) (stable : ∀ rule ∈ rules, Stable S context rule)
    {tree other : Tree} (trees : tree.commit = other.commit) {log otherLog : Log}
    (logs : S log otherLog) (current : NodeId) (verdict : Verdict) :
    Agree S (offer context link anchor rules current verdict tree log)
      (offer context link anchor rules current verdict other otherLog) := by
  induction rules generalizing current verdict tree other log otherLog with
  | nil => exact ⟨rfl, trees, logs⟩
  | cons rule rest ih =>
      have others : ∀ rule ∈ rest, Stable S context rule :=
        fun rule member => stable rule (List.mem_cons_of_mem _ member)
      have first := applyRule_agree context link anchor current (stable rule List.mem_cons_self)
        trees logs
      apply offer_cons_agree context link anchor trees first
      · intro _ verdict
        exact ih others trees logs current verdict
      · intro _ left right next verdict _
        exact ih others first.tree first.log next verdict

theorem offers_skip {rest : List Rule} {current : NodeId} {tree : Tree}
    (skipped : (tree.kind? current).any rule.kinds.contains = false) :
    offers context link anchor (rule :: rest) current tree
      = offers context link anchor rest current tree := by
  rw [offers, if_neg (Bool.eq_false_iff.mp skipped)]

theorem offers_first {rest : List Rule} {current : NodeId} {tree : Tree}
    (offered : (tree.kind? current).any rule.kinds.contains) :
    ⟨rule.id, current, link, tree.commit⟩ ∈ offers context link anchor (rule :: rest) current tree := by
  rw [offers, if_pos offered]
  exact List.mem_cons_self

theorem offers_rest {rest : List Rule} {current next : NodeId} {tree : Tree} {log : Log}
    {made : Offer} (offered : (tree.kind? current).any rule.kinds.contains)
    (handed : HandsOn (applyRule rule context current link anchor tree log).1 current next)
    (member : made ∈ offers context link anchor rest next
      (applyRule rule context current link anchor tree log).2.1) :
    made ∈ offers context link anchor (rule :: rest) current tree := by
  obtain ⟨verdicts, trees⟩ := applyRule_log rule context current link anchor tree log {}
  rw [verdicts] at handed
  rw [trees] at member
  rw [offers, if_pos offered]
  apply List.mem_cons_of_mem
  generalize applyRule rule context current link anchor tree {} = answer at handed member
  rcases answer with ⟨verdict, after, entries⟩
  cases verdict with
  | unchanged =>
      cases handed
      exact member
  | replaced new =>
      cases handed
      exact member
  | deleted => exact absurd handed id
  | inserted nodes => exact absurd handed id

theorem offers_of_commit (rules : List Rule) {tree other : Tree}
    (same : tree.commit = other.commit) (current : NodeId) :
    offers context link anchor rules current tree = offers context link anchor rules current other := by
  induction rules generalizing current tree other with
  | nil => rfl
  | cons rule rest ih =>
      unfold offers
      rw [kind?_of_commit same, same, applyRule_of_commit rule context current link anchor same]
      split
      · rfl
      · exact ih same current

/-- One more rule whose attempts are fruitless wherever it is offered a node. -/
theorem offer_isolated (front back : List Rule) (extra : Rule)
    (foreign : ∀ rule ∈ front ++ back, rule.id ≠ extra.id) {tree other : Tree}
    (trees : tree.commit = other.commit) {log otherLog : Log}
    (logs : SameWithout extra.id log otherLog) (current : NodeId) (verdict : Verdict)
    (fruitless : ∀ made ∈ offers context link anchor (front ++ extra :: back) current tree,
      made.ruleId = extra.id → Fruitless extra context made) :
    Agree (SameWithout extra.id)
      (offer context link anchor (front ++ extra :: back) current verdict tree log)
      (offer context link anchor (front ++ back) current verdict other otherLog) := by
  have stable : ∀ rule ∈ front ++ back, Stable (SameWithout extra.id) context rule :=
    fun rule member {node link anchor _ _ _} =>
      applyRule_foreign rule context node link anchor (foreign rule member)
  induction front generalizing current verdict tree other log otherLog with
  | nil =>
      have others := fun {tree other : Tree} (trees : tree.commit = other.commit) {log otherLog : Log}
        (logs : SameWithout extra.id log otherLog) =>
          offer_agree context link anchor back stable trees logs current verdict
      rw [List.nil_append, List.nil_append, offer]
      split
      · next offered =>
          -- It is the extra rule's turn, and nothing comes of it.
          obtain ⟨after, applied, reported⟩ := applyRule_fruitless extra context current link anchor
            log (fruitless _ (offers_first context link anchor offered) rfl)
          have kept : tree.commit.commit = other.commit := trees
          rw [applied]
          exact others kept (reported.trans logs)
      · exact others trees logs
  | cons rule rest ih =>
      have foreignRest : ∀ rule ∈ rest ++ back, rule.id ≠ extra.id :=
        fun rule member => foreign rule (List.mem_cons_of_mem _ member)
      have stableRest : ∀ rule ∈ rest ++ back, Stable (SameWithout extra.id) context rule :=
        fun rule member => stable rule (List.mem_cons_of_mem _ member)
      have first := applyRule_agree context link anchor current (stable rule List.mem_cons_self)
        trees logs
      apply offer_cons_agree context link anchor trees first
      · intro skipped verdict
        apply ih foreignRest trees logs current verdict _ stableRest
        rwa [List.cons_append, offers_skip context link anchor skipped] at fruitless
      · intro offered left right next verdict handed
        apply ih foreignRest first.tree first.log next verdict _ stableRest
        intro made member
        exact fruitless made (offers_rest context link anchor offered handed member)

end

def answerAt (rules : List Rule) (context : Context) (node : NodeId) (tree : Tree) (log : Log) :
    Verdict × Tree × Log :=
  offer context (tree.parent? node) (tree.anchor? node) rules node .unchanged tree log

-- The visitor of a pass, writing down the offers beside the log.
def tracer (rules : List Rule) (context : Context) : Visitor (Log × List Offer) := fun node => do
  let walk ← get
  let made := offersAt rules context node walk.tree
  let (verdict, tree, log) := answerAt rules context node walk.tree walk.state.1
  set { walk with tree, state := (log, walk.state.2 ++ made) }
  return verdict

theorem anchor?_commit (tree : Tree) (id : NodeId) : tree.commit.anchor? id = tree.anchor? id := by
  have upward : ∀ depth id, tree.commit.spanUpward depth id = tree.spanUpward depth id := by
    intro depth
    induction depth with
    | zero => exact fun _ => rfl
    | succ depth ih =>
        intro id
        simp only [Tree.spanUpward, ih]
        rfl
  exact upward _ _

theorem anchor?_of_commit {tree other : Tree} (same : tree.commit = other.commit) (id : NodeId) :
    tree.anchor? id = other.anchor? id := by
  rw [← anchor?_commit tree, same, anchor?_commit]

theorem parent?_of_commit {tree other : Tree} (same : tree.commit = other.commit) (id : NodeId) :
    tree.parent? id = other.parent? id := by
  rw [← Tree.parent?_commit tree, same, Tree.parent?_commit]

section

variable (context : Context) {S : Log → Log → Prop} {rules : List Rule}

theorem answerAt_agree (stable : ∀ rule ∈ rules, Stable S context rule) {tree other : Tree}
    (trees : tree.commit = other.commit) {log otherLog : Log} (logs : S log otherLog)
    (node : NodeId) :
    Agree S (answerAt rules context node tree log) (answerAt rules context node other otherLog) := by
  unfold answerAt
  rw [parent?_of_commit trees, anchor?_of_commit trees]
  exact offer_agree context _ _ rules stable trees logs node .unchanged

theorem offersAt_of_commit (rules : List Rule) {tree other : Tree}
    (trees : tree.commit = other.commit) (node : NodeId) :
    offersAt rules context node tree = offersAt rules context node other := by
  unfold offersAt
  rw [parent?_of_commit trees, anchor?_of_commit trees]
  exact offers_of_commit context _ _ rules trees node

theorem answerAt_isolated {front back : List Rule} {extra : Rule}
    (foreign : ∀ rule ∈ front ++ back, rule.id ≠ extra.id) {tree other : Tree}
    (trees : tree.commit = other.commit) {log otherLog : Log}
    (logs : SameWithout extra.id log otherLog) (node : NodeId)
    (fruitless : ∀ made ∈ offersAt (front ++ extra :: back) context node tree,
      made.ruleId = extra.id → Fruitless extra context made) :
    Agree (SameWithout extra.id) (answerAt (front ++ extra :: back) context node tree log)
      (answerAt (front ++ back) context node other otherLog) := by
  unfold offersAt at fruitless
  unfold answerAt
  rw [parent?_of_commit trees, anchor?_of_commit trees] at fruitless ⊢
  exact offer_isolated context _ _ front back extra foreign trees logs node .unchanged fruitless

theorem tracer_visitor (node : NodeId) :
    Walk.Paired (Walk.Alike fun both log => both.1 = log) (fun _ => False) (tracer rules context node)
      (visitor rules context node) where
  lasting _ := id
  alike {walk other} alike := by
    have stable : ∀ rule ∈ rules, Stable Eq context rule := by
      intro rule _ _ _ _ _ _ _ same
      rw [same]
    have agree := answerAt_agree context stable alike.tree alike.state node
    exact Or.inr ⟨congrArg Except.ok agree.verdict,
      { alike with tree := agree.tree, state := agree.log }⟩

theorem tracer_recorder (node : NodeId) :
    Walk.Paired (Walk.Alike fun both made => both.2 = made) (fun _ => False) (tracer rules context node)
      (recorder rules context node) where
  lasting _ := id
  alike {walk other} alike := by
    have stable : ∀ rule ∈ rules, Stable (fun _ _ => True) context rule :=
      fun _ _ _ _ _ _ _ _ _ => trivial
    have agree : Agree (fun _ _ => True) (answerAt rules context node walk.tree walk.state.1)
        (answerAt rules context node other.tree {}) :=
      answerAt_agree context stable alike.tree trivial node
    have made : walk.state.2 ++ offersAt rules context node walk.tree
        = other.state ++ offersAt rules context node other.tree := by
      rw [alike.state, offersAt_of_commit context rules alike.tree node]
    exact Or.inr ⟨congrArg Except.ok agree.verdict,
      { alike with tree := agree.tree, state := made }⟩

-- An offer to the rule that bore fruit.
def Spoiled (extra : Rule) (context : Context) (made : Offer) : Prop :=
  made.ruleId = extra.id ∧ ¬ Fruitless extra context made

theorem tracer_isolated {front back : List Rule} {extra : Rule}
    (foreign : ∀ rule ∈ front ++ back, rule.id ≠ extra.id) (node : NodeId) :
    Walk.Paired (Walk.Alike fun both log => SameWithout extra.id both.1 log)
      (fun both => ∃ made ∈ both.2, Spoiled extra context made)
      (tracer (front ++ extra :: back) context node) (visitor (front ++ back) context node) where
  lasting walk spoilt := by
    obtain ⟨made, member, fruit⟩ := spoilt
    exact ⟨made, List.mem_append_left _ member, fruit⟩
  alike {walk other} alike := by
    by_cases fruit : ∃ made ∈ offersAt (front ++ extra :: back) context node walk.tree,
        made.ruleId = extra.id ∧ ¬ Fruitless extra context made
    · obtain ⟨made, member, own⟩ := fruit
      exact Or.inl ⟨made, List.mem_append_right _ member, own⟩
    · have agree := answerAt_isolated context foreign alike.tree alike.state node
        fun made member own => Classical.byContradiction fun bears =>
          fruit ⟨made, member, own, bears⟩
      exact Or.inr ⟨congrArg Except.ok agree.verdict,
        { alike with tree := agree.tree, state := agree.log }⟩

/-- A walk with rules beside one that is paired with its tracer: they end alike if no offer of the
first was spoiled, and what is recorded of the first is a walk like it. -/
theorem walk_traced {other : Visitor Log} (S : Log → Log → Prop) {spoiled : Offer → Prop}
    (paired : ∀ node, Walk.Paired (Walk.Alike fun both log => S both.1 log)
      (fun both => ∃ made ∈ both.2, spoiled made) (tracer rules context node) (other node))
    (steps : Nat) {traced tree otherTree : Tree} (traces : traced.commit = tree.commit)
    (trees : tree.commit = otherTree.commit) {log otherLog : Log} (logs : S log otherLog)
    (start : NodeId)
    (sound : ∀ made ∈ (Walk.run (recorder rules context) steps traced [] start).2.state,
      ¬ spoiled made) :
    let recorded := Walk.run (recorder rules context) steps traced [] start
    let left := Walk.run (visitor rules context) steps tree log start
    let right := Walk.run other steps otherTree otherLog start
    (recorded.1 = left.1 ∧ recorded.2.tree.commit = left.2.tree.commit)
      ∧ left.1 = right.1 ∧ Walk.Alike S left.2 right.2 := by
  intro recorded left right
  -- One walk that keeps both the log and the offers stands between the three.
  obtain ⟨noted, notes⟩ := (Walk.run_alike (tracer_recorder context) steps traces.symm
    (log, []) rfl start).resolve_left id
  obtain ⟨ended, ends⟩ := (Walk.run_alike (tracer_visitor context) steps rfl
    (log, []) rfl start).resolve_left id
  have unspoilt : ¬ ∃ made ∈ (Walk.run (tracer rules context) steps tree (log, [])
      start).2.state.2, spoiled made := by
    rintro ⟨made, member, spoilt⟩
    rw [notes.state] at member
    exact sound made member spoilt
  obtain ⟨same, alike⟩ := (Walk.run_alike paired steps trees (log, []) logs start).resolve_left
    unspoilt
  refine ⟨⟨noted.symm.trans ended, notes.tree.symm.trans ends.tree⟩, ended.symm.trans same, ?_⟩
  refine ⟨ends.tree.symm.trans alike.tree, ?_, ends.visited.symm.trans alike.visited,
    ends.changes.symm.trans alike.changes, ends.errors.symm.trans alike.errors,
    ends.cascadeLimited.symm.trans alike.cascadeLimited⟩
  have carried := alike.state
  rwa [ends.state] at carried

end

theorem walkDiagnostics_alike {S : Log → Log → Prop} {left right : Walk Log}
    (alike : Walk.Alike S left right) : walkDiagnostics left = walkDiagnostics right := by
  have positions : left.tree.position? = right.tree.position? := by
    funext node
    simp only [Tree.position?, Tree.positionOf, anchor?_of_commit alike.tree,
      Tree.source_of_commit alike.tree]
  simp only [walkDiagnostics, alike.errors, alike.cascadeLimited, positions]

theorem walkDiagnostics_unnamed (walk : Walk Log) (diagnostic : Diagnostic)
    (member : diagnostic ∈ walkDiagnostics walk) : diagnostic.ruleId = none := by
  rcases List.mem_append.mp member with refused | limited
  · obtain ⟨entry, _, rfl⟩ := List.mem_map.mp refused
    rfl
  · obtain ⟨node, _, rfl⟩ := List.mem_map.mp limited
    rfl

end Pass

theorem Log.without_foldl_report (id : String) (diagnostics : List Diagnostic)
    (unnamed : ∀ diagnostic ∈ diagnostics, diagnostic.ruleId = none) (log : Log) :
    (diagnostics.foldl Log.report log).without id = diagnostics.foldl Log.report (log.without id) := by
  induction diagnostics generalizing log with
  | nil => rfl
  | cons diagnostic rest ih =>
      have other : diagnostic.ruleId ≠ some id := by simp [unnamed diagnostic List.mem_cons_self]
      rw [List.foldl_cons, List.foldl_cons, ← Log.without_report_other other]
      exact ih (fun diagnostic member => unnamed diagnostic (List.mem_cons_of_mem _ member)) _

namespace Run

section

variable {rules : List Rule} {steps left : Nat} {context : Context} {tree : Tree} {made : Offer}

theorem offers_now
    (member : made ∈ (Walk.run (Pass.recorder rules context) steps tree [] tree.root).2.state) :
    made ∈ offers rules steps context (left + 1) tree := by
  rw [offers]
  generalize Walk.run (Pass.recorder rules context) steps tree [] tree.root = recorded at member
  rcases recorded with ⟨stop | ⟨⟩, walk⟩
  · exact member
  · dsimp only
    split
    · exact member
    · exact List.mem_append_left _ member

theorem offers_later {walk : Walk (List Offer)}
    (ended : Walk.run (Pass.recorder rules context) steps tree [] tree.root = (.ok (), walk))
    (changed : walk.tree.revision ≠ tree.revision)
    (member : made ∈ offers rules steps context left walk.tree) :
    made ∈ offers rules steps context (left + 1) tree := by
  rw [offers, ended]
  dsimp only
  rw [if_neg changed]
  exact List.mem_append_right _ member

end

/-- Passes of two lists of rules, the first traced by its offers. Where none of these is spoiled they
end alike, but for what is left of the logs. -/
theorem passes_traced {rules others : List Rule} {steps : Nat} {context : Context}
    (kept : Log → Log) {spoiled : Offer → Prop}
    (paired : ∀ node, Walk.Paired (Walk.Alike fun both log => kept both.1 = log)
      (fun both => ∃ made ∈ both.2, spoiled made) (Pass.tracer rules context node)
      (Pass.visitor others context node))
    (reports : ∀ diagnostics : List Diagnostic, (∀ diagnostic ∈ diagnostics, diagnostic.ruleId = none) →
      ∀ log, kept (diagnostics.foldl Log.report log) = diagnostics.foldl Log.report (kept log))
    (left : Nat) {traced tree other : Tree} (traces : traced.commit = tree.commit)
    (trees : tree.commit = other.commit) {outcome otherOutcome : RunOutcome}
    (outcomes : { outcome with log := kept outcome.log } = otherOutcome)
    (sound : ∀ made ∈ offers rules steps context left traced, ¬ spoiled made) :
    let full := passes rules steps context left outcome tree
    let rest := passes others steps context left otherOutcome other
    full.1.map (fun ended => { ended with log := kept ended.log }) = rest.1
      ∧ full.2.commit = rest.2.commit := by
  induction left generalizing traced tree other outcome otherOutcome with
  | zero => exact ⟨congrArg Except.ok outcomes, trees⟩
  | succ left ih =>
      have logs : kept outcome.log = otherOutcome.log := by rw [← outcomes]
      have walks := Pass.walk_traced context (fun log other => kept log = other) paired steps traces
        trees logs traced.root fun made member => sound made (offers_now member)
      have later := fun walk ended changed made member =>
        sound made (@offers_later _ _ left _ _ made walk ended changed member)
      rw [passes, passes, ← Tree.root_of_commit trees, ← Tree.root_of_commit traces]
      revert walks later
      generalize Walk.run (Pass.recorder rules context) steps traced [] traced.root = recorded
      generalize Walk.run (Pass.visitor rules context) steps tree outcome.log traced.root = full
      generalize Walk.run (Pass.visitor others context) steps other otherOutcome.log traced.root
        = rest
      rcases recorded with ⟨_, recordedWalk⟩
      rcases full with ⟨stop | ⟨⟩, walk⟩
      · rcases rest with ⟨_, otherWalk⟩
        rintro ⟨⟨rfl, notes⟩, rfl, alike⟩ later
        exact ⟨rfl, alike.tree⟩
      · rcases rest with ⟨_, otherWalk⟩
        rintro ⟨⟨rfl, notes⟩, rfl, alike⟩ later
        -- The walk reports in no rule's name, so what is kept of the log keeps these reports.
        have told := reports (Pass.walkDiagnostics walk) (Pass.walkDiagnostics_unnamed walk) walk.state
        rw [show kept walk.state = otherWalk.state from alike.state,
          Pass.walkDiagnostics_alike alike] at told
        dsimp only
        rw [← Tree.revision_of_commit alike.tree, ← Tree.revision_of_commit trees]
        by_cases same : walk.tree.revision = tree.revision
        · rw [if_pos same, if_pos same]
          refine ⟨?_, alike.tree⟩
          rw [← outcomes]
          simp only [Except.map, Pass.walkDiagnostics_alike alike, told]
        · rw [if_neg same, if_neg same]
          have changed : recordedWalk.tree.revision ≠ traced.revision := by
            rw [Tree.revision_of_commit notes, Tree.revision_of_commit traces]
            exact same
          apply ih notes alike.tree _ (later recordedWalk rfl changed)
          rw [← outcomes]
          simp only [Pass.walkDiagnostics_alike alike, told]

theorem passes_isolated {front back : List Rule} {extra : Rule} {steps : Nat} {context : Context}
    (foreign : ∀ rule ∈ front ++ back, rule.id ≠ extra.id) (left : Nat)
    {traced tree other : Tree} (traces : traced.commit = tree.commit)
    (trees : tree.commit = other.commit) {outcome otherOutcome : RunOutcome}
    (outcomes : outcome.without extra.id = otherOutcome)
    (fruitless : ∀ made ∈ offers (front ++ extra :: back) steps context left traced,
      made.ruleId = extra.id → Pass.Fruitless extra context made) :
    let full := passes (front ++ extra :: back) steps context left outcome tree
    let rest := passes (front ++ back) steps context left otherOutcome other
    full.1.map (·.without extra.id) = rest.1 ∧ full.2.commit = rest.2.commit :=
  passes_traced (Log.without · extra.id) (Pass.tracer_isolated context foreign)
    (fun diagnostics unnamed => Log.without_foldl_report extra.id diagnostics unnamed) left traces
    trees outcomes fun made member spoilt => spoilt.2 (fruitless made member spoilt.1)

theorem concluded_without (outcome : RunOutcome) (id : String) :
    (concluded outcome).without id = concluded (outcome.without id) := by
  cases converged : outcome.converged with
  | true => simp [concluded, RunOutcome.without, converged]
  | false => simp [concluded, RunOutcome.without, converged, Log.without_report_other]

/-- A rule whose attempts all come to nothing is invisible: with it and without it a run stops alike
or ends alike, on the same tree, with the same passes and applications, and with the same
diagnostics but for those of the rule. -/
theorem run_without_fruitless (front back : List Rule) (extra : Rule) (options : RunOptions)
    (context : Context) (tree : Tree) (foreign : ∀ rule ∈ front ++ back, rule.id ≠ extra.id)
    (fruitless : ∀ made ∈ offers (front ++ extra :: back) options.steps context
      (max options.maxPasses 1) tree, made.ruleId = extra.id → Pass.Fruitless extra context made) :
    let full := run (front ++ extra :: back) options context tree
    let rest := run (front ++ back) options context tree
    full.1.map (·.without extra.id) = rest.1 ∧ full.2.commit = rest.2.commit
      ∧ (tree.journal = none → full.2 = rest.2) := by
  have started : ({} : RunOutcome).without extra.id = {} := rfl
  obtain ⟨outcomes, trees⟩ := passes_isolated foreign (max options.maxPasses 1)
    (rfl : tree.commit = tree.commit) rfl started fruitless
  dsimp only
  rw [run_eq (front ++ extra :: back), run_eq (front ++ back)]
  dsimp only
  refine ⟨?_, trees, ?_⟩
  · rw [← outcomes]
    cases (passes (front ++ extra :: back) options.steps context (max options.maxPasses 1) {}
      tree).1 with
    | error stop => rfl
    | ok outcome => exact congrArg Except.ok (concluded_without outcome extra.id)
  · intro closed
    rwa [Tree.commit_of_closed (passes_closed _ _ _ _ _ closed),
      Tree.commit_of_closed (passes_closed _ _ _ _ _ closed)] at trees

section

-- Renames whatever is called `a`.
def relabelling : Rule where
  id := "relabelling"
  description := ""
  kinds := [.name]
  accepts tree node _ := .ok (tree.nameOf? node = some "a")
  apply node _ := do
    Edit.setName node "b"
    return .unchanged

-- Renames whatever it is offered, and then fails.
def blundering : Rule where
  id := "blundering"
  description := ""
  kinds := [.name, .program]
  accepts _ _ _ := .ok true
  apply node _ := do
    Edit.setName node "a"
    throw (.error (.message "no"))

theorem blundering_fruitless (context : Context) (made : Offer) :
    Pass.Fruitless blundering context made := by
  have applied := RuleStep.run_ofEdit (Edit.setName made.node "a") made.tree.checkpoint
  have edited : made.tree.checkpoint.edited [.setName made.node "a"]
      = ((Edit.setName made.node "a").run made.tree.checkpoint).2 := rfl
  have ran : ∃ failure, (blundering.apply made.node context).run made.tree.checkpoint
      = (.error failure, made.tree.checkpoint.edited [.setName made.node "a"]) := by
    rw [edited]
    unfold blundering
    dsimp only
    generalize (Edit.setName made.node "a").run made.tree.checkpoint = result at applied ⊢
    rcases result with ⟨(error | ⟨size, index⟩) | ⟨⟩, tree⟩
    · exact ⟨_, Step.run_bind_error applied _⟩
    · exact ⟨_, Step.run_bind_error applied _⟩
    · exact ⟨_, Step.run_bind_ok applied _⟩
  obtain ⟨failure, ran⟩ := ran
  have tried := Pass.run_attempt blundering context made.node made.tree.checkpoint
  rw [ran] at tried
  simp only [Pass.Fruitless]
  rw [show (Pass.attempt blundering made.node context).run made.tree.checkpoint
    = (.error failure, made.tree.checkpoint.edited [.setName made.node "a"]) from tried]
  exact ⟨_, rfl⟩

-- A program with one statement, the name `a`.
def oneName : Tree :=
  (Tree.empty "").edited [.construct (.name "a"), .push ⟨0⟩ .statement ⟨1⟩]

/-- The rule that fails is offered nodes before and after the other one has renamed the name. -/
theorem run_without_blundering :
    (∀ rule ∈ [] ++ [relabelling], rule.id ≠ blundering.id)
      ∧ (∀ made ∈ offers ([] ++ blundering :: [relabelling]) 9 {} 2 oneName,
        made.ruleId = blundering.id → Pass.Fruitless blundering {} made)
      ∧ (∃ made ∈ offers ([] ++ blundering :: [relabelling]) 9 {} 2 oneName,
        made.ruleId = blundering.id ∧ made.tree.nameOf? made.node = some "b")
      ∧ (run ([] ++ blundering :: [relabelling]) ⟨2, 9⟩ {} oneName).1.map (·.without blundering.id)
        = (run ([] ++ [relabelling]) ⟨2, 9⟩ {} oneName).1
      ∧ (run ([] ++ blundering :: [relabelling]) ⟨2, 9⟩ {} oneName).2
        = (run ([] ++ [relabelling]) ⟨2, 9⟩ {} oneName).2 := by
  have foreign : ∀ rule ∈ [] ++ [relabelling], rule.id ≠ blundering.id := by
    simp [relabelling, blundering]
  have fruitless : ∀ made ∈ offers ([] ++ blundering :: [relabelling]) 9 {} 2 oneName,
      made.ruleId = blundering.id → Pass.Fruitless blundering {} made :=
    fun made _ _ => blundering_fruitless {} made
  obtain ⟨outcomes, _, trees⟩ := run_without_fruitless [] [relabelling] blundering ⟨2, 9⟩ {} oneName
    foreign fruitless
  refine ⟨foreign, fruitless, ?_, outcomes, trees (by decide +kernel)⟩
  · have offered : (offers ([] ++ blundering :: [relabelling]) 9 {} 2 oneName).any (fun made =>
        made.ruleId = blundering.id ∧ made.tree.nameOf? made.node = some "b") = true := by
      decide +kernel
    obtain ⟨made, member, found⟩ := List.any_eq_true.mp offered
    exact ⟨made, member, of_decide_eq_true found⟩

end

end Run

end Codemod
