import Codemod.Proofs.Edit.Seat
import Codemod.Proofs.Run.Answers
import Codemod.Proofs.Walk.Visits

/-!
What the applications of a run say of its tree. Whatever is answered of a node at its place, other
than that it is unchanged, the walk carries out and counts, with one exception: a node that is answered
to be replaced by itself is left as it is. So, but for such answers, applications are on record just
where a pass has edited the tree.
-/

namespace Codemod

open Step

structure Tree.Placed (tree : Tree) (link : Option Link) (node : NodeId) : Prop where
  inside : tree.contains node
  held : ∀ place, link = some place → (place.slot, node) ∈ tree.children place.parent
  top : link = none → node = tree.root

theorem Tree.Placed.quiet {tree after : Tree} {link : Option Link} {node : NodeId}
    (placed : tree.Placed link node) (quiet : tree.Quiet after) : after.Placed link node where
  inside := quiet.contains placed.inside
  held place linked := by
    have held := placed.held place linked
    obtain ⟨shape, shaped, _⟩ := Tree.shape?_of_child held
    obtain ⟨parent, found, _⟩ := Option.map_eq_some_iff.mp shaped
    rwa [quiet.children found]
  top rootless := by
    rw [quiet.root]
    exact placed.top rootless

namespace Edit

variable {tree : Tree} {link : Option Link} {node : NodeId} (placed : tree.Placed link node)

include placed

theorem replaceAt_counts {new : NodeId} (differ : node ≠ new) (entering : tree.contains new) :
    ∃ after, (replaceAt link node new).run tree = (.ok (), after)
      ∧ tree.revision < after.revision := by
  cases link with
  | none =>
      have atRoot := placed.top rfl
      obtain ⟨held, found⟩ := Tree.node?_of_contains entering
      have still : (tree.setRoot new).contains node :=
        ((tree.framed_setParent new none).contains node).trans placed.inside
      refine ⟨((tree.setRoot new).unlink node none).bump, ?_, ?_⟩
      · unfold replaceAt
        rw [if_neg differ]
        dsimp only
        rw [run_bind_ok (run_get tree), if_neg (not_not_intro atRoot),
          run_bind_ok (run_node_some found), run_bind_ok (run_set ..),
          run_bind_ok (run_unlink_inside still none)]
        rfl
      · exact Nat.lt_succ_of_le (Tree.revision_respected.trans
          (Tree.revision_respected.setRoot tree new (by rw [found]; rfl))
          (Tree.revision_respected.unlink _ _ _))
  | some place =>
      obtain ⟨shape, shaped, child⟩ := Tree.shape?_of_child (placed.held place rfl)
      obtain ⟨storage, holds, member⟩ := Shape.storage?_of_child child
      obtain ⟨filled, replaced⟩ := Storage.replace?_of_mem member new
      exact ⟨_, run_replaceAt shaped holds differ replaced placed.inside entering,
        Nat.lt_succ_of_le (Tree.revision_respected.refill shaped holds
          (.replaced differ replaced) _ _)⟩

theorem removeAt_counts {place : Link} (linked : link = some place)
    (free : place.slot.arity ≠ .required) :
    ∃ after, (removeAt link node).run tree = (.ok (), after)
      ∧ tree.revision < after.revision := by
  subst linked
  obtain ⟨shape, shaped, child⟩ := Tree.shape?_of_child (placed.held place rfl)
  obtain ⟨storage, holds, member⟩ := Shape.storage?_of_child child
  obtain ⟨filled, removed⟩ := Storage.remove?_of_mem (Shape.storage?_free holds free) member
  exact ⟨_, run_removeAt shaped holds free removed placed.inside,
    Nat.lt_succ_of_le (Tree.revision_respected.refill shaped holds (.removed free removed) _ _)⟩

theorem spliceAt_counts {place : Link} {nodes : List NodeId} (linked : link = some place)
    (list : place.slot.arity = .list) (entering : ∀ id ∈ nodes, tree.contains id) :
    ∃ after, (spliceAt link node nodes).run tree = (.ok (), after)
      ∧ tree.revision < after.revision := by
  subst linked
  obtain ⟨shape, shaped, child⟩ := Tree.shape?_of_child (placed.held place rfl)
  obtain ⟨storage, holds, member⟩ := Shape.storage?_of_child child
  obtain ⟨held, rfl⟩ := Shape.storage?_list holds list
  exact ⟨_, run_spliceAt shaped holds list member placed.inside entering,
    Nat.lt_succ_of_le (Tree.revision_respected.refill shaped holds
      (.spliced nodes list member) _ _)⟩

end Edit

namespace Pass

def visit (rules : List Rule) (context : Context) : Visiting Log := fun node tree log =>
  let (verdict, after, entries) := answerAt rules context node tree log
  (.ok verdict, after, entries)

theorem visitor_visit (rules : List Rule) (context : Context) :
    (visit rules context).visitor = visitor rules context := by
  funext node walk
  rfl

end Pass

namespace Walk

/-- A child that is next stands at its place. -/
theorem placed_of_nextChild? {σ : Type} {walk : Walk σ} {parent : NodeId} {child : Slot × NodeId}
    (next : walk.nextChild? parent = some child) :
    walk.tree.Placed (some ⟨parent, child.1⟩) child.2 := by
  obtain ⟨held, _, points⟩ := of_nextChild? next
  refine ⟨Tree.contains_of_parent? points, ?_, ?_⟩
  · rintro _ ⟨⟩
    exact held
  · rintro ⟨⟩

structure Proceeds (before after : Walk (Log × List (NodeId × Tree))) : Prop where
  steady : before.tree.Steady after.tree
  entries : ∃ made, after.state.1.applications = before.state.1.applications ++ made
  calls : ∃ more, after.state.2 = before.state.2 ++ more

theorem proceeds_of_state {before after : Walk (Log × List (NodeId × Tree))}
    (steady : before.tree.Steady after.tree) (state : after.state = before.state) :
    Proceeds before after :=
  ⟨steady, ⟨[], by rw [state, List.append_nil]⟩, ⟨[], by rw [state, List.append_nil]⟩⟩

theorem Proceeds.trans {before middle after : Walk (Log × List (NodeId × Tree))}
    (first : Proceeds before middle) (second : Proceeds middle after) : Proceeds before after := by
  obtain ⟨made, entries⟩ := first.entries
  obtain ⟨further, later⟩ := second.entries
  obtain ⟨more, calls⟩ := first.calls
  obtain ⟨others, rest⟩ := second.calls
  exact ⟨first.steady.trans second.steady,
    ⟨made ++ further, by rw [later, entries, List.append_assoc]⟩,
    ⟨more ++ others, by rw [rest, calls, List.append_assoc]⟩⟩

/-- Something was put on record just when a revision was counted or a node put in its own place. -/
structure Balanced (rules : List Rule) (context : Context)
    (before after : Walk (Log × List (NodeId × Tree))) : Prop where
  steady : before.tree.Steady after.tree
  balance : ∃ made more, after.state.1.applications = before.state.1.applications ++ made
    ∧ after.state.2 = before.state.2 ++ more
    ∧ (made = [] ↔ after.tree.revision = before.tree.revision
      ∧ ∀ call ∈ more, ¬ Pass.Returned rules context call)

section

variable {rules : List Rule} {context : Context}
variable {before middle after : Walk (Log × List (NodeId × Tree))}

theorem balanced_of_state (tree : after.tree = before.tree) (state : after.state = before.state) :
    Balanced rules context before after :=
  ⟨by rw [tree]; exact Tree.steady_ordered.refl _, [], [], by rw [state, List.append_nil],
    by rw [state, List.append_nil], by simp [tree]⟩

theorem Balanced.proceeds (balanced : Balanced rules context before after) :
    Proceeds before after := by
  obtain ⟨steady, made, more, entries, calls, _⟩ := balanced
  exact ⟨steady, ⟨made, entries⟩, ⟨more, calls⟩⟩

/-- Once a revision was counted, something is on record and will stay there. -/
theorem Balanced.append (first : Balanced rules context before middle)
    (proceeds : Proceeds middle after)
    (second : middle.tree.revision = before.tree.revision → Balanced rules context middle after) :
    Balanced rules context before after := by
  have grows := first.steady.grows
  have further := proceeds.steady.grows
  obtain ⟨steady, made, more, entries, calls, balance⟩ := first
  refine ⟨steady.trans proceeds.steady, ?_⟩
  by_cases same : middle.tree.revision = before.tree.revision
  · obtain ⟨_, others, rest, later, visits, also⟩ := second same
    refine ⟨made ++ others, more ++ rest, ?_, ?_, ?_⟩
    · rw [later, entries, List.append_assoc]
    · rw [visits, calls, List.append_assoc]
    · rw [List.append_eq_nil_iff, balance, also, List.forall_mem_append]
      simp only [same, true_and]
      tauto
  · obtain ⟨others, later⟩ := proceeds.entries
    obtain ⟨rest, visits⟩ := proceeds.calls
    refine ⟨made ++ others, more ++ rest, by rw [later, entries, List.append_assoc],
      by rw [visits, calls, List.append_assoc], ?_⟩
    constructor
    · intro none
      exact absurd (balance.mp (List.append_eq_nil_iff.mp none).1).1 same
    · rintro ⟨back, _⟩
      omega

def answered (walk : Walk (Log × List (NodeId × Tree))) (node : NodeId)
    (answer : Verdict × Tree × Log) : Walk (Log × List (NodeId × Tree)) :=
  { walk with tree := answer.2.1, state := (answer.2.2, walk.state.2 ++ [(node, walk.tree)]) }

section

variable {node : NodeId} {answer : Verdict × Tree × Log} {made : List Application}
variable (told : Pass.Answered rules context node before.tree before.state.1 answer made)

include told

theorem answered_stays (stays : answer.1 = .unchanged ∨ answer.1 = .replaced node) :
    Balanced rules context before (before.answered node answer) := by
  refine ⟨told.steady, made, [(node, before.tree)], told.entries, rfl, ?_⟩
  rw [List.forall_mem_singleton]
  constructor
  · intro none
    exact ⟨(told.silent none).1, (told.silent none).2.2⟩
  · rintro ⟨same, apart⟩
    obtain ⟨differs, nothing⟩ := told.idle same apart
    exact nothing (stays.resolve_right differs)

theorem answered_moves (moves : answer.1 ≠ .unchanged)
    (proceeds : Proceeds (before.answered node answer) after)
    (counts : answer.2.1.revision = before.tree.revision →
      answer.2.1.revision < after.tree.revision) :
    Balanced rules context before after ∧ after.tree.revision ≠ before.tree.revision := by
  have changed : after.tree.revision ≠ before.tree.revision := by
    have first : before.tree.revision ≤ answer.2.1.revision := told.steady.grows
    have second : answer.2.1.revision ≤ after.tree.revision := proceeds.steady.grows
    omega
  obtain ⟨further, later⟩ := proceeds.entries
  obtain ⟨others, calls⟩ := proceeds.calls
  refine ⟨⟨told.steady.trans proceeds.steady, made ++ further, (node, before.tree) :: others,
    ?_, ?_, ?_⟩, changed⟩
  · rw [later, ← List.append_assoc, ← told.entries]
    rfl
  · rw [calls, ← List.singleton_append, ← List.append_assoc]
    rfl
  · constructor
    · intro none
      exact absurd (told.silent (List.append_eq_nil_iff.mp none).1).2.1 moves
    · exact fun same => absurd same.1 changed

end

variable (edits : ∀ rule ∈ rules, rule.Edits)

include edits

theorem proceeds_respected (context : Context) : Respected (Pass.visit rules context).noted.visitor
    (fun before result after => result = .ok () → Proceeds before after) where
  refl walk _ _ := proceeds_of_state (Tree.steady_ordered.refl walk.tree) rfl
  trans first second ended := (first rfl).trans (second ended)
  mark walk _ _ := proceeds_of_state (Tree.steady_ordered.refl walk.tree) rfl
  limit walk _ _ := proceeds_of_state (Tree.steady_ordered.refl walk.tree) rfl
  carryOut id edit carried walk ended := by
    obtain ⟨steady, state⟩ := carryOut_steady carried id walk ended
    exact proceeds_of_state steady state
  visit node := by
    intro walk _
    obtain ⟨made, answered⟩ :=
      Pass.answerAt_answered context edits node walk.tree walk.state.1
    rw [Visiting.run_visitor]
    exact ⟨answered.steady, ⟨made, answered.entries⟩, ⟨[(node, walk.tree)], rfl⟩⟩

/-- A step that begins with an edit goes on from there; if the edit was made and counted, so was the
step. -/
theorem carried_proceeds {edit : Edit Unit} (carried : Carried edit) {node : NodeId}
    {settled : Settled} {next : Bool → Walking (Log × List (NodeId × Tree)) Settled}
    (along : ∀ made, Along (fun before result after => result = .ok () → Proceeds before after)
      (next made))
    (ran : (carryOut node edit >>= next).run before = (.ok settled, after)) :
    Proceeds before after ∧ ((∃ tree, edit.run before.tree = (.ok (), tree)
      ∧ before.tree.revision < tree.revision) → before.tree.revision < after.tree.revision) := by
  have respected := proceeds_respected edits {}
  have whole := respected.bind (respected.carryOut node edit carried) along before
  rw [ran] at whole
  refine ⟨whole rfl, ?_⟩
  rintro ⟨tree, edits, counts⟩
  rw [run_bind, run_carryOut, edits] at ran
  have rest := along true { before with tree, changes := before.changes + 1 }
  dsimp only at ran
  rw [ran] at rest
  exact Nat.lt_of_lt_of_le counts (rest rfl).steady.grows

/-- A node that is found at its place is visited, and what is answered is done. -/
theorem settle_balanced {link : Option Link} {node : NodeId} (placed : before.tree.Placed link node)
    (named : before.tree.parent? node = link) {left : Nat} {settled : Settled}
    (ran : (settle (Pass.visit rules context).noted.visitor link left node).run before
      = (.ok settled, after)) :
    Balanced rules context before after
      ∧ (after.tree.revision = before.tree.revision → settled = .descend node) := by
  cases left with
  | zero =>
      cases ran
      exact ⟨balanced_of_state rfl rfl, fun _ => rfl⟩
  | succ left =>
      have respected := proceeds_respected edits context
      obtain ⟨made, answered⟩ :=
        Pass.answerAt_answered context edits node before.tree before.state.1
      rw [settle, run_bind, Visiting.run_visitor] at ran
      simp only [Visiting.noted, Pass.visit] at ran
      generalize Pass.answerAt rules context node before.tree before.state.1 = answer
        at answered ran
      have still : answer.2.1.revision = before.tree.revision → answer.2.1.Placed link node :=
        fun same => placed.quiet (answered.steady.quiet same)
      have fits := answered.fits
      rw [named] at fits
      -- An answer that moves the node changes the tree, so nothing is asked of how it settled.
      have moves : answer.1 ≠ .unchanged → Proceeds (before.answered node answer) after →
          (answer.2.1.revision = before.tree.revision →
            answer.2.1.revision < after.tree.revision) →
          Balanced rules context before after
            ∧ (after.tree.revision = before.tree.revision → settled = .descend node) := by
        intro told proceeds counts
        obtain ⟨balanced, changed⟩ := answered_moves answered told proceeds counts
        exact ⟨balanced, fun same => absurd same changed⟩
      obtain ⟨verdict, tree, entries⟩ := answer
      dsimp only [Except.mapError] at ran still fits
      cases verdict with
      | unchanged =>
          cases ran
          exact ⟨answered_stays answered (Or.inl rfl), fun _ => rfl⟩
      | replaced new =>
          dsimp only at ran
          by_cases own : new = node
          · rw [if_pos own] at ran
            cases ran
            exact ⟨answered_stays answered (Or.inr (by rw [own])), fun _ => rfl⟩
          · rw [if_neg own] at ran
            obtain ⟨proceeds, counts⟩ := carried_proceeds edits (.replaceAt link node new)
              (fun made => by
                split
                · refine respected.bind (respected.marks new) fun fresh => ?_
                  split
                  · exact respected.settle link left new
                  · exact respected.pure _
                · exact respected.pure _) ran
            exact moves Verdict.noConfusion proceeds fun same =>
              counts (Edit.replaceAt_counts (still same) (Ne.symm own) (fits same))
      | deleted =>
          obtain ⟨proceeds, counts⟩ := carried_proceeds edits (.removeAt link node)
            (fun made => by split <;> exact respected.pure _) ran
          refine moves Verdict.noConfusion proceeds fun same => ?_
          obtain ⟨place, linked, free⟩ := fits same
          exact counts (Edit.removeAt_counts (still same) linked free)
      | inserted nodes =>
          obtain ⟨proceeds, counts⟩ := carried_proceeds edits (.spliceAt link node nodes)
            (fun made => by split <;> exact respected.pure _) ran
          refine moves Verdict.noConfusion proceeds fun same => ?_
          obtain ⟨⟨place, linked, list⟩, entering⟩ := fits same
          exact counts (Edit.spliceAt_counts (still same) linked list entering)

theorem proceeds_onward {steps : Nat} {link : Option Link} {settled : Settled}
    (ran : (onward (Pass.visit rules context).noted.visitor steps link settled).run before
      = (.ok (), after)) : Proceeds before after := by
  have respected := proceeds_respected edits context
  obtain ⟨visits, descends⟩ := respected.visits steps
  have along := respected.onward visits descends link settled before
  rw [ran] at along
  exact along rfl

theorem visits_balanced (steps : Nat) :
    (∀ {before after : Walk (Log × List (NodeId × Tree))} {id : NodeId} {link : Option Link},
        before.tree.Placed link id → before.tree.parent? id = link →
        (visitNode (Pass.visit rules context).noted.visitor steps id link).run before
          = (.ok (), after) → Balanced rules context before after)
      ∧ ∀ {before after : Walk (Log × List (NodeId × Tree))} {parent : NodeId},
        (descend (Pass.visit rules context).noted.visitor steps parent).run before
          = (.ok (), after) → Balanced rules context before after := by
  -- The two recursions call each other with fewer steps, so they are followed together.
  induction steps with
  | zero =>
      constructor
      · intro before after id link _ _ ran
        cases ran
      · intro before after parent ran
        cases ran
  | succ steps ih =>
      obtain ⟨visitIh, descendIh⟩ := ih
      constructor
      · intro before after id link placed named ran
        rw [visitNode_succ] at ran
        obtain ⟨settled, middle, settles, rest⟩ := run_bind_eq_ok.mp ran
        obtain ⟨first, descends⟩ := settle_balanced edits placed named settles
        -- Of what follows on an edit only growth is asked; without one the walk goes down.
        refine first.append (proceeds_onward edits rest) fun same => ?_
        rw [descends same] at rest
        exact descendIh rest
      · intro before after parent ran
        rw [descend, run_bind_ok (run_get before)] at ran
        cases next : before.nextChild? parent with
        | none =>
            rw [next] at ran
            cases ran
            exact balanced_of_state rfl rfl
        | some child =>
            obtain ⟨_, unseen, points⟩ := of_nextChild? next
            have placed := placed_of_nextChild? next
            rw [next] at ran
            dsimp only at ran
            rw [run_bind, run_mark, if_neg (Bool.eq_false_iff.mp unseen)] at ran
            obtain ⟨⟨⟩, middle, visits, rest⟩ := run_bind_eq_ok.mp ran
            have visited : Balanced rules context
                { before with visited := before.visited.insert child.2 } middle :=
              visitIh placed points visits
            have first : Balanced rules context before middle := ⟨visited.steady, visited.balance⟩
            have second := descendIh rest
            exact first.append second.proceeds fun _ => second

/-- A walk from the root, which may point at a place that holds it. -/
theorem run_balanced {steps : Nat} {tree : Tree} {log : Log}
    (held : ∀ place, tree.parent? tree.root = some place →
      (place.slot, tree.root) ∈ tree.children place.parent)
    (ran : run (Pass.visit rules context).noted.visitor steps tree (log, []) tree.root
      = (.ok (), after)) :
    Balanced rules context { tree, state := (log, []) } after := by
  rw [run, subtree, run_bind_ok (run_get _)] at ran
  dsimp only at ran
  cases found : tree.node? tree.root with
  | none =>
      rw [found] at ran
      cases ran
  | some node =>
      rw [found] at ran
      dsimp only at ran
      rw [run_bind, run_mark, if_neg (by simp)] at ran
      have named : tree.parent? tree.root = node.parent := by rw [Tree.parent?, found]; rfl
      have placed : tree.Placed node.parent tree.root :=
        ⟨Tree.contains_of_node? found, named ▸ held, fun _ => rfl⟩
      have visited : Balanced rules context
          { tree, state := (log, []), visited := ({} : NodeSet).insert tree.root } after :=
        (visits_balanced edits steps).1 placed named ran
      exact ⟨visited.steady, visited.balance⟩

end

end Walk

namespace Run

/-- The calls of the first pass: each node that was visited, with the tree at that moment
(`Walk.run_noted`). -/
def firstCalls (rules : List Rule) (steps : Nat) (context : Context) (tree : Tree) :
    List (NodeId × Tree) :=
  (Walk.run (Pass.visit rules context).noted.visitor steps tree ({}, []) tree.root).2.state.2

variable {rules : List Rule} {context : Context}

theorem run_pass (rules : List Rule) (steps : Nat) (context : Context) (tree : Tree) (log : Log) :
    let noted := Walk.run (Pass.visit rules context).noted.visitor steps tree (log, []) tree.root
    Walk.run (Pass.visitor rules context) steps tree log tree.root = (noted.1, noted.2.plain) := by
  rw [← Pass.visitor_visit]
  exact Walk.run_noted (Pass.visit rules context) steps tree log tree.root

section

variable (edits : ∀ rule ∈ rules, rule.Edits)

include edits

theorem passes_proceed {steps left : Nat} {outcome ended : RunOutcome} {tree after : Tree}
    (ran : passes rules steps context left outcome tree = (.ok ended, after)) :
    ∃ made, ended.log.applications = outcome.log.applications ++ made := by
  induction left generalizing outcome tree with
  | zero =>
      cases ran
      exact ⟨[], (List.append_nil _).symm⟩
  | succ left ih =>
      have along := (Walk.proceeds_respected edits context).run steps tree (outcome.log, []) tree.root
      rw [passes, run_pass] at ran
      generalize Walk.run (Pass.visit rules context).noted.visitor steps tree (outcome.log, [])
        tree.root = result at ran along
      rcases result with ⟨stop | ⟨⟩, walk⟩
      · cases ran
      · obtain ⟨made, entries⟩ := (along rfl).entries
        dsimp only at ran
        split at ran
        · cases ran
          refine ⟨made, ?_⟩
          rw [applications_reports]
          exact entries
        · obtain ⟨more, later⟩ := ih ran
          refine ⟨made ++ more, ?_⟩
          rw [later, applications_reports, ← List.append_assoc]
          exact congrArg (· ++ more) entries

/-- Whatever the rules edit, a run that ends has applications on record just when a pass edited the
tree or, in the first pass, a rule put the visited node in its own place. A root that points at a place
has to stand there, as in every tree that was read, where the root points at none: elsewhere the walk
is refused what it was told to do with the root, and counts nothing. -/
theorem run_reports {options : RunOptions} {outcome : RunOutcome} {tree after : Tree}
    (held : ∀ place, tree.parent? tree.root = some place →
      (place.slot, tree.root) ∈ tree.children place.parent)
    (ran : run rules options context tree = (.ok outcome, after)) :
    outcome.log.applications ≠ [] ↔ 0 < outcome.editingPasses
      ∨ ∃ call ∈ firstCalls rules options.steps context tree, Pass.Returned rules context call := by
  obtain ⟨left, passesLeft⟩ : ∃ left, max options.maxPasses 1 = left + 1 :=
    ⟨max options.maxPasses 1 - 1, by omega⟩
  rw [run_eq, passesLeft, passes, run_pass] at ran
  rw [firstCalls]
  generalize walked : Walk.run (Pass.visit rules context).noted.visitor options.steps tree ({}, [])
    tree.root = result at ran
  rcases result with ⟨stop | ⟨⟩, walk⟩
  · cases ran
  · obtain ⟨_, made, calls, entries, visits, balance⟩ := Walk.run_balanced edits held walked
    dsimp only at ran entries visits balance
    rw [List.nil_append] at visits
    rw [visits]
    split at ran
    · next same =>
        cases ran
        rw [concluded_applications, concluded_editingPasses, applications_reports]
        have noted : walk.plain.state.applications = made := entries
        have still : walk.tree.revision = tree.revision := same
        rw [noted, Ne, balance]
        simp only [still, true_and, not_forall, not_not, exists_prop, Nat.lt_irrefl, false_or]
    · next changed =>
        -- An edited tree was counted, and what stands on record by then will stay there.
        have spoken : made ≠ [] := fun none => changed (balance.mp none).1
        generalize passed : passes rules options.steps context left _ walk.plain.tree = result at ran
        rcases result with ⟨stop | ended, finished⟩
        · cases ran
        · cases ran
          have counted := passes_counts passed
          obtain ⟨more, later⟩ := passes_proceed edits passed
          have noted : walk.plain.state.applications = made := entries
          rw [concluded_applications, concluded_editingPasses]
          dsimp only at counted later
          rw [applications_reports, noted] at later
          refine iff_of_true ?_ (Or.inl (by omega))
          rw [later]
          exact List.append_ne_nil_of_left_ne_nil spoken more

end

def returning : Rule where
  id := "returning"
  description := ""
  kinds := [.functionCall]
  accepts _ _ _ := .ok true
  apply node _ := return .replaced node

theorem returning_edits : returning.Edits :=
  fun _ _ => RuleStep.edits_pure _

def callTree : Tree :=
  Tree.ofProgram "<?php f();" ((Php.program "<?php f();").toOption.getD [])

def returnedRun : Except Stop RunOutcome × Tree :=
  run [returning] ⟨3, 20⟩ {} callTree

/-- The answer is put on record though no pass edits the tree. -/
theorem returned_recorded : (returnedRun.1.toOption.map fun outcome =>
      (outcome.log.applications.length, outcome.editingPasses)) = some (1, 0)
    ∧ returnedRun.2 = callTree := by
  constructor <;> decide +kernel

theorem run_reports_returned :
    (∀ rule ∈ [returning], rule.Edits) ∧ callTree.parent? callTree.root = none
      ∧ ∃ outcome after, returnedRun = (.ok outcome, after) ∧ outcome.editingPasses = 0
        ∧ (∃ call ∈ firstCalls [returning] 20 {} callTree, Pass.Returned [returning] {} call)
        ∧ outcome.log.applications ≠ [] := by
  have edits : ∀ rule ∈ [returning], rule.Edits := by
    intro rule member
    cases List.mem_singleton.mp member
    exact returning_edits
  have rootless : callTree.parent? callTree.root = none := by decide +kernel
  have returned : ∃ call ∈ firstCalls [returning] 20 {} callTree,
      Pass.Returned [returning] {} call := by decide +kernel
  have counts : (returnedRun.1.toOption.map (·.editingPasses)) = some 0 := by decide +kernel
  generalize ran : returnedRun = result at counts
  rcases result with ⟨stop | outcome, after⟩
  · cases counts
  · have unedited : outcome.editingPasses = 0 := by simpa [Except.toOption] using counts
    have recorded := (run_reports edits (fun _ points => nomatch rootless.symm.trans points) ran).mpr
      (Or.inr returned)
    exact ⟨edits, rootless, outcome, after, rfl, unedited, returned, recorded⟩

end Run

end Codemod
