import Codemod.Proofs.Run.Fixpoint
import Codemod.Proofs.Run.Guarded
import Codemod.Proofs.Walk.Visits

/-!
Sweeps. Under one rule that lets the node it is offered stay where it is, a pass comes to every node
that can be reached once it is over, to those as well that were built on the way. What every visit
keeps, seeing the marks, is what the pass ends with, and at a fixed point the rule applies nowhere.
-/

namespace Codemod

open Step

namespace Tree.Reworked

variable {before after : Tree} {top old : NodeId}

/-- What is not below the node is reached as before, and so is the node itself. -/
theorem below_outside (rework : before.Reworked old after old) (tidy : before.Tidy top)
    (inside : before.contains top) {id : NodeId} (below : before.Below top id)
    (outside : before.Below old id → id = old) : after.Below top id := by
  induction below with
  | self => exact .self
  | @child parent id slot above held ih =>
      have apart : ¬ before.Below old parent := by
        intro inner
        obtain rfl := outside (.child inner held)
        exact tidy.not_below_child above held inner
      have still := rework.frame (tidy.contains_below inside above) apart
      apply Tree.Below.child (ih fun inner => absurd inner apart)
      rw [Tree.children, Tree.shape?_of_node_eq still]
      exact held

/-- Nodes that share nothing with the subtree keep what is below them. -/
theorem below_beside (rework : before.Reworked old after old) (tidy : before.Tidy top)
    (inside : before.contains top) {other : NodeId} (reached : before.Below top other)
    (apart : ∀ {id}, before.Below other id → ¬ before.Below old id) (id : NodeId) :
    after.Below other id ↔ before.Below other id := by
  have present := tidy.contains_below inside reached
  constructor
  · intro below
    induction below with
    | self => exact .self
    | child _ held ih =>
        have still := rework.frame ((tidy.sub reached).contains_below present ih) (apart ih)
        rw [Tree.children, Tree.shape?_of_node_eq still] at held
        exact .child ih held
  · intro below
    exact rework.below_outside (tidy.sub reached) present below fun inner => absurd inner (apart below)

theorem children_above (rework : before.Reworked old after old) (tidy : before.Tidy top)
    (inside : before.contains top) {parent : NodeId} {slot : Slot} (reached : before.Below top parent)
    (held : (slot, old) ∈ before.children parent) :
    after.children parent = before.children parent := by
  have frame := rework.frame (tidy.contains_below inside reached) (tidy.not_below_child reached held)
  rw [Tree.children, Tree.shape?_of_node_eq frame, Tree.children]

end Tree.Reworked

namespace Rule

def Stays (rule : Rule) : Prop :=
  ∀ {tree node context verdict after}, (rule.apply node context).run tree = (.ok verdict, after) →
    verdict = .unchanged

-- A node that the rule is not offered or that it leaves alone.
def Declines (rule : Rule) (context : Context) (tree : Tree) (node : NodeId) : Prop :=
  (tree.kind? node).any rule.kinds.contains → rule.accepts tree.checkpoint node context = .ok false

theorem Declines.of_commit {rule : Rule} {context : Context} {tree other : Tree} {node : NodeId}
    (declines : rule.Declines context tree node) (same : other.commit = tree.commit) :
    rule.Declines context other node := by
  have opened : other.checkpoint = tree.checkpoint :=
    show other.commit.checkpoint = tree.commit.checkpoint by rw [same]
  rw [Declines, opened, Pass.kind?_of_commit same]
  exact declines

end Rule

structure Sweeping (P : Tree → NodeSet → Prop) (tree : Tree) (marks : NodeSet) : Prop where
  fit : Run.Fit tree
  inside : ∀ {id}, marks.contains id → tree.contains id
  holds : P tree marks

/-- What every visit keeps, where the rule leaves the node alone and where it is applied. -/
structure Sweep (rule : Rule) (context : Context) (P : Tree → NodeSet → Prop) : Prop where
  of_commit : ∀ {tree other : Tree} {marks}, other.commit = tree.commit → P tree marks → P other marks
  passed : ∀ {tree marks id}, Sweeping P tree marks → tree.Reaches id → ¬ marks.contains id →
    rule.Declines context tree id → P tree (marks.insert id)
  applied : ∀ {tree edited : Tree} {marks id}, Sweeping P tree marks → tree.Reaches id →
    ¬ marks.contains id → (tree.kind? id).any rule.kinds.contains →
      rule.accepts tree.checkpoint id context = .ok true → tree.Reworked id edited id →
        (rule.apply id context).run tree = (.ok .unchanged, edited) → P edited (marks.insert id)

namespace Sweep

variable {rule : Rule} {context : Context} {P : Tree → NodeSet → Prop}

theorem sweeping_of_commit (sweep : Sweep rule context P) {tree other : Tree} {marks : NodeSet}
    (sweeping : Sweeping P tree marks) (same : other.commit = tree.commit) :
    Sweeping P other marks where
  fit := sweeping.fit.of_commit same
  inside marked := by
    rw [Tree.contains, Tree.nodes_of_commit same]
    exact sweeping.inside marked
  holds := sweep.of_commit same sweeping.holds

theorem inside_insert {tree after : Tree} {marks : NodeSet} {id : NodeId}
    (sweeping : Sweeping P tree marks) (reached : tree.Reaches id)
    (reworked : tree.Reworked id after id) {node : NodeId} (marked : (marks.insert id).contains node) :
    after.contains node := by
  apply Tree.grown reworked.size
  rw [NodeSet.contains_insert_iff] at marked
  rcases marked with rfl | early
  · exact sweeping.fit.tidy.contains_below sweeping.fit.inside reached
  · exact sweeping.inside early

/-- The rule leaves the node alone, or it is applied and reworks the subtree. -/
theorem applyRule_sweeps (sweep : Sweep rule context P) (safe : rule.Safe) (stays : rule.Stays)
    {tree : Tree} {marks : NodeSet} {id : NodeId} (sweeping : Sweeping P tree marks)
    (reached : tree.Reaches id) (fresh : ¬ marks.contains id)
    (offered : (tree.kind? id).any rule.kinds.contains) (link : Option Link) (anchor : Option Span)
    (log : Log) :
    ∃ after entries, Pass.applyRule rule context id link anchor tree log = (.unchanged, after, entries)
      ∧ tree.Reworked id after id ∧ P after (marks.insert id) := by
  -- The rule runs on a checkpoint of the tree, and what it leaves is committed again.
  have opening : tree.checkpoint.commit = tree.commit := rfl
  have ready := sweep.sweeping_of_commit sweeping opening
  have nodes : tree.nodes = tree.checkpoint.nodes := rfl
  have below := reached.of_nodes nodes
  have inside := sweeping.fit.tidy.contains_below sweeping.fit.inside reached
  have tidy := sweeping.fit.tidy.sub reached
  have opened : tree.Reworked id tree.checkpoint id := Tree.reworked_of_commit tidy opening
  obtain ⟨accepted, answers⟩ := safe.accepts ready.fit.proper id context
  have attempts := Pass.run_attempt rule context id tree.checkpoint
  rw [answers] at attempts
  unfold Pass.applyRule
  cases accepted with
  | false =>
      rw [attempts]
      have same : tree.checkpoint.commit.commit = tree.commit := rfl
      refine ⟨_, _, rfl, Tree.reworked_of_commit tidy same, sweep.of_commit same ?_⟩
      exact sweep.passed sweeping reached fresh fun _ => answers
  | true =>
      obtain ⟨verdict, edited, new, applies, reworked, told⟩ :=
        safe.applies ready.fit.proper inside opened.tidy offered context
      obtain rfl := stays applies
      obtain ⟨_, rfl⟩ : Verdict.unchanged = .unchanged ∧ new = id := told.resolve_right nofun
      rw [applies] at attempts
      rw [attempts]
      have closing : edited.commit.commit = edited.commit := rfl
      have closed := Tree.reworked_of_commit reworked.tidy closing
      refine ⟨_, _, rfl, (opened.trans inside reworked).trans inside closed, sweep.of_commit closing ?_⟩
      exact sweep.applied ready below fresh offered answers reworked applies

/-- A node is marked and visited. -/
theorem visit_sweeps (sweep : Sweep rule context P) (safe : rule.Safe) (stays : rule.Stays)
    {walk : Walk Log} {id : NodeId} (sweeping : Sweeping P walk.tree walk.visited)
    (reached : walk.tree.Reaches id) (fresh : ¬ walk.visited.contains id) :
    ∃ after, (Pass.visitor [rule] context id).run { walk with visited := walk.visited.insert id }
        = (.ok .unchanged, after)
      ∧ after.visited = walk.visited.insert id ∧ walk.tree.Reworked id after.tree id
      ∧ Sweeping P after.tree after.visited := by
  have tidy := sweeping.fit.tidy.sub reached
  have swept : ∀ {after : Tree}, walk.tree.Reworked id after id → P after (walk.visited.insert id) →
      Sweeping P after (walk.visited.insert id) := by
    intro after reworked holds
    have whole := reworked.lift sweeping.fit.tidy reached sweeping.fit.inside
    exact ⟨sweeping.fit.reworked whole, inside_insert sweeping reached reworked, holds⟩
  rw [Pass.run_visitor, Pass.answerAt, Pass.offer]
  by_cases offered : (walk.tree.kind? id).any rule.kinds.contains
  · obtain ⟨after, entries, applies, reworked, holds⟩ := sweep.applyRule_sweeps safe stays sweeping
      reached fresh offered (walk.tree.parent? id) (walk.tree.anchor? id) walk.state
    dsimp only
    rw [if_pos offered, applies]
    exact ⟨_, rfl, rfl, reworked, swept reworked holds⟩
  · dsimp only
    rw [if_neg offered]
    have holds := sweep.passed sweeping reached fresh fun also => absurd also offered
    exact ⟨_, rfl, rfl, tidy.reworked, swept tidy.reworked holds⟩

end Sweep

namespace Walk

/-- What became of a subtree, and which nodes were marked on the way: those of the subtree and new
ones. -/
structure Swept (before : Walk Log) (top : NodeId) (after : Walk Log) : Prop where
  reworked : before.tree.Reworked top after.tree top
  grows : ∀ {id}, before.visited.contains id → after.visited.contains id
  marks : ∀ {id}, after.visited.contains id →
    before.visited.contains id ∨ before.tree.Below top id ∨ ¬ before.tree.contains id

theorem Swept.trans {before middle after : Walk Log} {top : NodeId}
    (inside : before.tree.contains top) (first : Swept before top middle)
    (second : Swept middle top after) : Swept before top after where
  reworked := first.reworked.trans inside second.reworked
  grows marked := second.grows (first.grows marked)
  marks marked := by
    rcases second.marks marked with early | below | fresh
    · exact first.marks early
    · rcases first.reworked.reach below with ⟨early, _⟩ | fresh
      · exact Or.inr (Or.inl early)
      · exact Or.inr (Or.inr fresh)
    · exact Or.inr (Or.inr fun early => fresh (Tree.grown first.reworked.size early))

theorem Swept.lift {before after : Walk Log} {top old : NodeId} (swept : Swept before old after)
    (tidy : before.tree.Tidy top) (below : before.tree.Below top old)
    (inside : before.tree.contains top) : Swept before top after where
  reworked := swept.reworked.lift tidy below inside
  grows := swept.grows
  marks marked := (swept.marks marked).imp_right fun late => late.imp_left below.trans

def Met (walk : Walk Log) (top : NodeId) : Prop :=
  ∀ {id}, walk.tree.Below top id → walk.visited.contains id

def Unmet (walk : Walk Log) (top : NodeId) : Prop :=
  ∀ {id}, walk.tree.Below top id → ¬ walk.visited.contains id

theorem met_of_children {walk : Walk Log} {top : NodeId} (marked : walk.visited.contains top)
    (met : ∀ child ∈ walk.tree.children top, walk.Met child.2) : walk.Met top := by
  intro id below
  rcases Tree.below_iff.mp below with rfl | ⟨child, held, further⟩
  · exact marked
  · exact met child held further

/-- A visit marks its node only, so what it holds afterwards is still to be visited. -/
theorem unmet_children {before after : Walk Log} {top : NodeId}
    (inside : ∀ {id}, before.visited.contains id → before.tree.contains id) (unmet : before.Unmet top)
    (marks : after.visited = before.visited.insert top)
    (reworked : before.tree.Reworked top after.tree top) :
    ∀ child ∈ after.tree.children top, after.Unmet child.2 := by
  intro child held id below marked
  rw [marks, NodeSet.contains_insert_iff] at marked
  rcases marked with rfl | early
  · exact reworked.tidy.not_below_child .self held below
  · rcases reworked.reach (Tree.Below.trans (.child .self held) below) with ⟨under, _⟩ | fresh
    · exact unmet under early
    · exact fresh (inside early)

/-- Beside the subtree nothing becomes of the marks. -/
theorem Swept.beside {before after : Walk Log} {top old other : NodeId} (swept : Swept before old after)
    (tidy : before.tree.Tidy top) (inside : before.tree.contains top)
    (reached : before.tree.Below top other)
    (apart : ∀ {id}, before.tree.Below other id → ¬ before.tree.Below old id)
    (seen : before.Met other ∨ before.Unmet other) : after.Met other ∨ after.Unmet other := by
  have same := swept.reworked.below_beside tidy inside reached apart
  rcases seen with met | unmet
  · left
    intro id below
    exact swept.grows (met ((same id).mp below))
  · right
    intro id below marked
    have early := (same id).mp below
    rcases swept.marks marked with former | inner | fresh
    · exact unmet early former
    · exact apart early inner
    · exact fresh (tidy.contains_below inside (reached.trans early))

/-- A visit that marks no more than its node. -/
theorem swept_of_visit {before after : Walk Log} {id : NodeId}
    (marks : after.visited = before.visited.insert id)
    (reworked : before.tree.Reworked id after.tree id) : Swept before id after where
  reworked := reworked
  grows early := by simp [marks, early]
  marks late := by
    rw [marks, NodeSet.contains_insert_iff] at late
    rcases late with rfl | early
    · exact Or.inr (Or.inl .self)
    · exact Or.inl early

section

variable {before after : Walk Log} {parent child : NodeId} {slot : Slot}

theorem Swept.reaches (swept : Swept before child after)
    (tidy : before.tree.Tidy before.tree.root) (inside : before.tree.contains before.tree.root)
    (reached : before.tree.Reaches parent)
    (above : before.tree.Below child parent → parent = child) : after.tree.Reaches parent := by
  rw [Tree.Reaches, swept.reworked.root]
  exact swept.reworked.below_outside tidy inside reached above

/-- The other children are as they were: a visit changes nothing but its own subtree. -/
theorem Swept.children (swept : Swept before child after)
    (tidy : before.tree.Tidy before.tree.root) (inside : before.tree.contains before.tree.root)
    (reached : before.tree.Reaches parent) (held : (slot, child) ∈ before.tree.children parent)
    (met : after.Met child)
    (seen : ∀ other ∈ before.tree.children parent, before.Met other.2 ∨ before.Unmet other.2) :
    ∀ other ∈ after.tree.children parent, after.Met other.2 ∨ after.Unmet other.2 := by
  intro other stands
  rw [swept.reworked.children_above tidy inside reached held] at stands
  by_cases same : other.2 = child
  · exact Or.inl (same ▸ met)
  · exact swept.beside tidy inside (.child reached stands) (tidy.disjoint reached stands held same)
      (seen other stands)

end

variable {rule : Rule} {context : Context} {P : Tree → NodeSet → Prop}

theorem children_met_of_nextChild? {walk : Walk Log} {parent : NodeId}
    (tidy : walk.tree.Tidy walk.tree.root) (reached : walk.tree.Reaches parent)
    (none : walk.nextChild? parent = none) :
    ∀ child ∈ walk.tree.children parent, walk.visited.contains child.2 := by
  intro child held
  have seen := List.find?_eq_none.mp none child held
  simpa [tidy.named reached held] using seen

/-- Once the walk has come back to a node everything below it is marked. -/
theorem descend_sweeps (sweep : Sweep rule context P) (safe : rule.Safe) (stays : rule.Stays)
    (steps : Nat) {walk after : Walk Log} {parent : NodeId}
    (sweeping : Sweeping P walk.tree walk.visited) (reached : walk.tree.Reaches parent)
    (seen : ∀ child ∈ walk.tree.children parent, walk.Met child.2 ∨ walk.Unmet child.2)
    (ran : (descend (Pass.visitor [rule] context) steps parent).run walk = (.ok (), after)) :
    Sweeping P after.tree after.visited ∧ Swept walk parent after
      ∧ ∀ child ∈ after.tree.children parent, after.Met child.2 := by
  -- A visit goes on below its node with fewer steps, and so does what is left of the children.
  induction steps using Nat.strongRecOn generalizing walk after parent with
  | ind steps ih =>
  have tidy := sweeping.fit.tidy
  have root := sweeping.fit.inside
  have present := tidy.contains_below root reached
  rcases steps with _ | steps
  · cases ran
  rw [descend, run_bind_ok (run_get walk)] at ran
  cases next : walk.nextChild? parent with
  | none =>
      rw [next] at ran
      cases ran
      have marked := children_met_of_nextChild? tidy reached next
      refine ⟨sweeping, ⟨(tidy.sub reached).reworked, id, Or.inl⟩, ?_⟩
      intro child held
      exact (seen child held).resolve_right fun unmet => unmet .self (marked child held)
  | some entry =>
      obtain ⟨slot, child⟩ := entry
      obtain ⟨held, new, _⟩ := of_nextChild? next
      have fresh : ¬ walk.visited.contains child := by simp [new]
      have below : walk.tree.Reaches child := .child reached held
      have unmet : walk.Unmet child :=
        (seen _ held).resolve_left fun met => fresh (met .self)
      obtain ⟨visited, visits, marks, reworked, swept⟩ :=
        sweep.visit_sweeps safe stays sweeping below fresh
      rw [next] at ran
      dsimp only at ran
      rw [run_bind_ok (run_mark_fresh fresh)] at ran
      obtain ⟨_, walked, descends, rest⟩ := run_bind_eq_ok.mp ran
      rcases steps with _ | steps
      · cases descends
      rw [visit_unchanged visits] at descends
      have opens := swept_of_visit marks reworked
      have descended : visited.tree.Reaches child := opens.reaches tidy root below fun _ => rfl
      have lower := unmet_children sweeping.inside unmet marks reworked
      obtain ⟨settled, inner, met⟩ := ih steps (by omega) swept descended
        (fun entry stands => Or.inr (lower entry stands)) descends
      have whole := opens.trans (tidy.contains_below root below) inner
      have back : walked.tree.Reaches parent := whole.reaches tidy root reached fun under =>
        absurd under (tidy.not_below_child reached held)
      have childMet : walked.Met child := met_of_children (inner.grows (by simp [marks])) met
      have others := whole.children tidy root reached held childMet seen
      obtain ⟨ended, later, all⟩ := ih (steps + 1) (by omega) settled back others rest
      exact ⟨ended, (whole.lift (tidy.sub reached) (.child .self held) present).trans present later, all⟩

/-- A pass that comes to its end has come to every node that can then be reached. -/
theorem run_sweeps (sweep : Sweep rule context P) (safe : rule.Safe) (stays : rule.Stays)
    {steps : Nat} {tree : Tree} {log : Log} {walk : Walk Log} (fit : Run.Fit tree)
    (start : P tree {})
    (ran : Walk.run (Pass.visitor [rule] context) steps tree log tree.root = (.ok (), walk)) :
    Sweeping P walk.tree walk.visited
      ∧ ∀ {id}, walk.tree.Reaches id → walk.visited.contains id := by
  obtain ⟨node, present⟩ := Tree.node?_of_contains fit.inside
  let begun : Walk Log := { tree, state := log }
  have sweeping : Sweeping P begun.tree begun.visited := ⟨fit, nofun, start⟩
  have fresh : ¬ begun.visited.contains tree.root := by simp [begun]
  obtain ⟨visited, visits, marks, reworked, swept⟩ :=
    sweep.visit_sweeps safe stays sweeping .self fresh
  rw [Walk.run, subtree, run_bind_ok (run_get _)] at ran
  dsimp only at ran
  rw [present] at ran
  dsimp only at ran
  rw [run_bind_ok (run_mark_fresh fresh)] at ran
  rcases steps with _ | steps
  · cases ran
  rw [visit_unchanged visits] at ran
  have root : visited.tree.root = tree.root := reworked.root
  have top : visited.visited.contains tree.root := by simp [marks, begun]
  have lower := unmet_children sweeping.inside (fun _ => nofun) marks reworked
  obtain ⟨ended, inner, met⟩ := descend_sweeps sweep safe stays steps swept (root ▸ .self)
    (fun entry stands => Or.inr (lower entry stands)) ran
  refine ⟨ended, ?_⟩
  intro id under
  have still : walk.tree.root = tree.root := inner.reworked.root.trans root
  rw [Tree.Reaches, still] at under
  exact met_of_children (inner.grows top) met under

end Walk

namespace Run

variable {rule : Rule} {context : Context} {steps : Nat} {tree : Tree}

/-- A pass in which no node is accepted leaves the tree as it is. -/
theorem pass_declined (safe : rule.Safe) (stays : rule.Stays) (fit : Fit tree)
    (declines : ∀ {id}, tree.Reaches id → rule.Declines context tree id) {log : Log} {walk : Walk Log}
    (ran : Walk.run (Pass.visitor [rule] context) steps tree log tree.root = (.ok (), walk)) :
    walk.tree.commit = tree.commit := by
  have sweep : Sweep rule context fun other _ => other.commit = tree.commit := by
    constructor
    · exact fun same holds => same.trans holds
    · exact fun sweeping _ _ _ => sweeping.holds
    · intro other edited marks id sweeping reached _ offered accepted _ _
      have same := sweeping.holds
      have early : tree.Reaches id := by
        rw [Tree.Reaches, Tree.root_of_commit same] at reached
        exact reached.of_nodes (Tree.nodes_of_commit same)
      rw [(declines early).of_commit same offered] at accepted
      cases accepted
  exact (Walk.run_sweeps sweep safe stays fit rfl ran).1.holds

/-- Where a pass leaves nothing to accept the next one is the last. -/
theorem passes_settle {P : Tree → NodeSet → Prop} (sweep : Sweep rule context P) (safe : rule.Safe)
    (stays : rule.Stays) (fit : Fit tree) (start : P tree {})
    (settled : ∀ {other marks}, Sweeping P other marks → (∀ {id}, other.Reaches id → marks.contains id) →
      ∀ {id}, other.Reaches id → rule.Declines context other id)
    {left : Nat} {outcome ended : RunOutcome} {after : Tree}
    (ran : Run.passes [rule] steps context (left + 2) outcome tree = (.ok ended, after)) :
    ended.converged = true ∧ ended.passes ≤ outcome.passes + 2
      ∧ ∃ marks, Sweeping P after marks ∧ ∀ {id}, after.Reaches id → marks.contains id := by
  rw [Run.passes] at ran
  generalize walked : Walk.run (Pass.visitor [rule] context) steps tree outcome.log tree.root
    = result at ran
  rcases result with ⟨stop | ⟨⟩, walk⟩
  · cases ran
  obtain ⟨swept, met⟩ := Walk.run_sweeps sweep safe stays fit start walked
  dsimp only at ran
  split at ran
  · cases ran
    exact ⟨rfl, Nat.le_succ _, walk.visited, swept, met⟩
  rw [Run.passes] at ran
  dsimp only at ran
  generalize again : Walk.run (Pass.visitor [rule] context) steps walk.tree _ walk.tree.root
    = result at ran
  rcases result with ⟨stop | ⟨⟩, last⟩
  · cases ran
  have same := pass_declined safe stays swept.fit (settled swept met) again
  dsimp only at ran
  rw [if_pos (Tree.revision_of_commit same)] at ran
  cases ran
  refine ⟨rfl, Nat.le_refl _, walk.visited, sweep.sweeping_of_commit swept same, ?_⟩
  intro id reached
  rw [Tree.Reaches, Tree.root_of_commit same] at reached
  exact met (reached.of_nodes (Tree.nodes_of_commit same))

def Active (rule : Rule) (context : Context) : Prop :=
  ∀ {tree edited : Tree} {id}, Fit tree → tree.Reaches id → (tree.kind? id).any rule.kinds.contains →
    rule.accepts tree.checkpoint id context = .ok true → tree.Reworked id edited id →
      (rule.apply id context).run tree = (.ok .unchanged, edited) → edited.revision ≠ tree.revision

/-- At a fixed point of an active rule no node that can be reached is accepted. -/
theorem Settled.declines (settled : Settled [rule] steps context tree) (safe : rule.Safe)
    (stays : rule.Stays) (active : Active rule context) (fit : Fit tree) {id : NodeId}
    (reached : tree.Reaches id) : rule.Declines context tree id := by
  obtain ⟨log, walk, ran, still⟩ := settled
  -- Until the revision grows the tree is what it was, and every node that was met is declined.
  have sweep : Sweep rule context fun other marks => tree.revision ≤ other.revision
      ∧ (other.revision = tree.revision → other.commit = tree.commit
        ∧ ∀ {id}, marks.contains id → rule.Declines context tree id) := by
    constructor
    · intro other another marks same holds
      rw [Tree.revision_of_commit same]
      exact ⟨holds.1, fun equal => ⟨same.trans (holds.2 equal).1, (holds.2 equal).2⟩⟩
    · intro other marks id sweeping _ _ declines
      refine ⟨sweeping.holds.1, ?_⟩
      intro equal
      obtain ⟨same, met⟩ := sweeping.holds.2 equal
      refine ⟨same, ?_⟩
      intro node marked
      rw [NodeSet.contains_insert_iff] at marked
      rcases marked with rfl | early
      · exact declines.of_commit same.symm
      · exact met early
    · intro other edited marks id sweeping reached _ offered accepted reworked applied
      have more := active sweeping.fit reached offered accepted reworked applied
      have least := sweeping.holds.1
      have counts := reworked.counts
      exact ⟨by omega, fun equal => by omega⟩
  obtain ⟨swept, met⟩ := Walk.run_sweeps sweep safe stays fit ⟨Nat.le_refl _, fun _ => ⟨rfl, nofun⟩⟩ ran
  refine (swept.holds.2 (Tree.revision_of_commit still)).2 (met ?_)
  rw [Tree.Reaches, Tree.root_of_commit still]
  exact reached.of_nodes (Tree.nodes_of_commit still).symm

/-- A statement about the tree, and about the number of passes that have changed it, that the sweep
of a pass carries on. -/
structure Relayed (rule : Rule) (context : Context) (Q : Nat → Tree → Prop) : Prop where
  of_commit : ∀ {count} {tree other : Tree}, other.commit = tree.commit → Q count tree → Q count other
  sweep : ∀ {count} {tree : Tree}, Fit tree → Q count tree → ∃ P, Sweep rule context P ∧ P tree {}
    ∧ ∀ {other marks}, Sweeping P other marks → (∀ {id}, other.Reaches id → marks.contains id) →
      Q (count + 1) other

variable {Q : Nat → Tree → Prop}

theorem Relayed.passes (relayed : Relayed rule context Q) (safe : rule.Safe) (stays : rule.Stays)
    {left : Nat} {outcome ended : RunOutcome} {after : Tree} (fit : Fit tree)
    (holds : Q outcome.editingPasses tree)
    (ran : Run.passes [rule] steps context left outcome tree = (.ok ended, after)) :
    Q ended.editingPasses after := by
  have only : ∀ other ∈ [rule], other.Safe := fun other member => List.mem_singleton.mp member ▸ safe
  induction left generalizing outcome tree with
  | zero =>
      cases ran
      exact holds
  | succ left ih =>
      obtain ⟨smooth, _⟩ := pass_goes context only steps fit outcome.log
      rw [Run.passes] at ran
      generalize walked : Walk.run (Pass.visitor [rule] context) steps tree outcome.log tree.root
        = result at ran smooth
      rcases result with ⟨stop | ⟨⟩, walk⟩
      · cases ran
      · dsimp only at ran
        split at ran
        · next same =>
            cases ran
            exact relayed.of_commit (smooth.reworked.quiet same).1 holds
        · obtain ⟨P, sweep, start, ends⟩ := relayed.sweep fit holds
          obtain ⟨swept, met⟩ := Walk.run_sweeps sweep safe stays fit start walked
          exact ih (fit.reworked smooth.reworked) (ends swept met) ran

/-- What a run of an active rule ends with: the statement that was carried on and, if it converged, a
tree in which no node that can be reached is accepted. -/
theorem Relayed.run (relayed : Relayed rule context Q) (safe : rule.Safe) (stays : rule.Stays)
    (active : Active rule context) {options : RunOptions} {outcome : RunOutcome} {after : Tree}
    (fit : Fit tree) (holds : Q 0 tree)
    (ran : Run.run [rule] options context tree = (.ok outcome, after)) :
    Fit after ∧ Q outcome.editingPasses after ∧ (outcome.converged = true →
      ∀ {id}, after.Reaches id → rule.Declines context after id) := by
  have only : ∀ other ∈ [rule], other.Safe := fun other member => List.mem_singleton.mp member ▸ safe
  obtain ⟨ended, made, rfl⟩ := run_eq_ok ran
  have goes := passes_go context only options.steps (max options.maxPasses 1) fit
    (show ({} : RunOutcome).log.Clean from nofun)
  rw [made] at goes
  have kept := relayed.passes safe stays fit holds made
  rw [concluded_editingPasses, concluded_converged]
  refine ⟨goes.1, kept, ?_⟩
  intro converged id reached
  have settled := settled_of_converged only fit made rfl converged
  exact settled.declines safe stays active goes.1 reached

end Run

end Codemod
