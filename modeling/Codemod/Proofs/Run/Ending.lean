import Codemod.Proofs.Catalog.Levels
import Codemod.Proofs.Run.Smooth
import Mathlib.Data.Finset.Card
import Mathlib.Data.Prod.Lex
import Mathlib.Tactic.IntervalCases

/-!
Runs that end. The nodes not yet visited are counted by their levels, the highest first. A visit marks
its node, and whatever the rules add stands below it, so the counts fall with every place the walk
settles. Main statement: without the one pair of rules that feed each other, every pass comes to its
end, and so does the run (`Run.catalog_run_ends`).
-/

namespace Codemod

open Step

-- The node stays, or one that is in the arena and stands no higher than the limit takes its place.
def Verdict.Within (building : Bool) (limit : Nat) (tree : Tree) (verdict : Verdict) : Prop :=
  verdict = .unchanged
    ∨ ∃ new, verdict = .replaced new ∧ tree.contains new ∧ tree.level building new ≤ limit

namespace Pass

variable {building : Bool} {limit : Nat} {tree : Tree}

theorem within_after {after : Tree} {verdict : Verdict} (within : verdict.Within building limit tree)
    (spawns : tree.Spawns building limit after) : verdict.Within building limit after := by
  rcases within with same | ⟨new, replaced, inside, low⟩
  · exact Or.inl same
  · exact Or.inr ⟨new, replaced, spawns.contains inside, Nat.le_trans (spawns.lower new inside) low⟩

theorem contains_of_offered {node : NodeId} {kinds : List Kind}
    (offered : (tree.kind? node).any kinds.contains) : tree.contains node := by
  cases found : tree.shape? node with
  | none => simp [Tree.kind?, found] at offered
  | some shape => exact Tree.contains_of_shape? found

theorem contains_of_check {new node : NodeId} {link : Option Link}
    (checked : check tree (.replaced new) node link = .ok ()) : tree.contains new := by
  by_contra absent
  unfold check at checked
  dsimp only at checked
  rw [if_neg absent] at checked
  cases checked

/-- What a rule leaves of its node, or leaves it as it was where the rule fails. -/
theorem applyRule_within {rule : Rule} (lowers : rule.Lowers building) (context : Context)
    {node : NodeId} (offered : (tree.kind? node).any rule.kinds.contains) (link : Option Link)
    (anchor : Option Span) (log : Log) :
    let answer := applyRule rule context node link anchor tree log
    tree.Spawns building (tree.level building node) answer.2.1
      ∧ answer.1.Within building (tree.level building node) answer.2.1 := by
  have opened : ∀ {limit}, tree.Spawns building limit tree.checkpoint := Tree.spawns_of_commit rfl
  -- Wherever the rule stops, rolling back comes to the tree of the checkpoint.
  have kept : ∀ {edited : Tree}, tree.checkpoint.SameRollback edited →
      tree.Spawns building (tree.level building node) edited.rollback := by
    intro edited back
    apply Tree.spawns_of_commit
    rw [(back tree.checkpoint_recording).2, Tree.checkpoint_rollback]
    rfl
  have attempts := run_attempt rule context node tree.checkpoint
  obtain ⟨ventured, told⟩ := lowers tree.checkpoint node offered context
  unfold applyRule
  cases accepted : rule.accepts tree.checkpoint node context with
  | error crash =>
      rw [accepted] at attempts
      rw [attempts]
      exact ⟨kept (Tree.sameRollback_respected.refl _), Or.inl rfl⟩
  | ok applies =>
      cases applies with
      | false =>
          rw [accepted] at attempts
          rw [attempts]
          exact ⟨Tree.spawns_of_commit rfl, Or.inl rfl⟩
      | true =>
          rw [accepted] at attempts
          dsimp only at attempts
          generalize (rule.apply node context).run tree.checkpoint = result at attempts ventured told
          rcases result with ⟨failure | verdict, edited⟩
          · rw [attempts]
            exact ⟨kept ventured.back, Or.inl rfl⟩
          · rw [attempts]
            dsimp only
            cases checked : check edited verdict node link with
            | error error => exact ⟨kept ventured.back, Or.inl rfl⟩
            | ok done =>
                have closed : ∀ {limit}, edited.Spawns building limit edited.commit :=
                  Tree.spawns_of_commit rfl
                refine ⟨(opened.trans ventured.spawns).trans closed, ?_⟩
                rcases told verdict rfl with same | ⟨new, replaced, low⟩
                · exact Or.inl same
                · subst replaced
                  have inside : edited.contains new := contains_of_check checked
                  exact Or.inr ⟨new, rfl, inside, low⟩

theorem offer_within {rules : List Rule} (lowers : ∀ rule ∈ rules, rule.Lowers building)
    (context : Context) (link : Option Link) (anchor : Option Span) {current : NodeId}
    (low : tree.level building current ≤ limit) {verdict : Verdict}
    (within : verdict.Within building limit tree) (log : Log) :
    let answer := offer context link anchor rules current verdict tree log
    tree.Spawns building limit answer.2.1 ∧ answer.1.Within building limit answer.2.1 := by
  induction rules generalizing tree current verdict log with
  | nil => exact ⟨Tree.spawns_refl tree, within⟩
  | cons rule rest ih =>
      have others : ∀ rule ∈ rest, rule.Lowers building :=
        fun rule member => lowers rule (List.mem_cons_of_mem _ member)
      unfold offer
      split
      · next offered =>
          obtain ⟨spawned, told⟩ := applyRule_within (lowers rule List.mem_cons_self) context offered
            link anchor log
          generalize applyRule rule context current link anchor tree log = answer at spawned told
          rcases answer with ⟨answered, after, entries⟩
          have spawns := spawned.mono low
          have later := within_after within spawns
          -- The rules that are left go on from a node that stands no higher.
          rcases told with same | ⟨new, replaced, inside, lower⟩
          · cases same
            have stays : after.level building current ≤ limit :=
              Nat.le_trans (spawns.lower current (contains_of_offered offered)) low
            obtain ⟨further, ended⟩ := ih others stays later entries
            exact ⟨spawns.trans further, ended⟩
          · cases replaced
            have lowNew : after.level building new ≤ limit := Nat.le_trans lower low
            dsimp only
            split
            · next same =>
                obtain ⟨further, ended⟩ := ih others (same ▸ lowNew) later entries
                exact ⟨spawns.trans further, ended⟩
            · obtain ⟨further, ended⟩ := ih others lowNew
                (Or.inr ⟨new, rfl, inside, lowNew⟩) entries
              exact ⟨spawns.trans further, ended⟩
      · exact ih others low within log

end Pass

namespace Walk

variable {σ : Type} {building : Bool} {limit : Nat} {before middle after : Walk σ}

structure Onward (building : Bool) (limit : Nat) (before after : Walk σ) : Prop where
  spawns : before.tree.Spawns building limit after.tree
  marks : ∀ id, before.visited.contains id → after.visited.contains id

theorem Onward.trans (first : Onward building limit before middle)
    (second : Onward building limit middle after) : Onward building limit before after :=
  ⟨first.spawns.trans second.spawns, fun id seen => second.marks id (first.marks id seen)⟩

theorem Onward.mono {higher : Nat} (onward : Onward building limit before after)
    (rises : limit ≤ higher) : Onward building higher before after :=
  ⟨onward.spawns.mono rises, onward.marks⟩

def pending (building : Bool) (level : Nat) (walk : Walk σ) : Finset Nat :=
  (Finset.range walk.tree.size).filter fun index =>
    ¬ walk.visited.contains ⟨index⟩ ∧ level ≤ walk.tree.level building ⟨index⟩

theorem mem_pending {level index : Nat} {walk : Walk σ} :
    index ∈ walk.pending building level ↔ walk.tree.contains ⟨index⟩
      ∧ ¬ walk.visited.contains ⟨index⟩ ∧ level ≤ walk.tree.level building ⟨index⟩ := by
  simp [pending, Tree.contains_iff]

/-- At the limit and above, nothing is pending that was not. -/
theorem pending_subset (onward : Onward building limit before after) {level : Nat}
    (reaches : limit ≤ level) : after.pending building level ⊆ before.pending building level := by
  intro index member
  rw [mem_pending] at member ⊢
  obtain ⟨present, unseen, high⟩ := member
  by_cases inside : before.tree.contains ⟨index⟩
  · refine ⟨inside, fun seen => unseen (onward.marks _ seen), ?_⟩
    exact Nat.le_trans high (onward.spawns.lower _ inside)
  · have low := onward.spawns.fresh _ inside present
    omega

theorem pending_ssubset {id : NodeId}
    (onward : Onward building (before.tree.level building id) before after)
    (inside : before.tree.contains id) (unseen : ¬ before.visited.contains id)
    (seen : after.visited.contains id) :
    after.pending building (before.tree.level building id)
      ⊂ before.pending building (before.tree.level building id) := by
  rw [Finset.ssubset_iff_of_subset (pending_subset onward (Nat.le_refl _))]
  refine ⟨id.index, mem_pending.mpr ⟨inside, unseen, Nat.le_refl _⟩, ?_⟩
  intro still
  exact (mem_pending.mp still).2.1 seen

def outlook (building : Bool) (walk : Walk σ) : Nat ×ₗ Nat ×ₗ Nat :=
  toLex ((walk.pending building 2).card,
    toLex ((walk.pending building 1).card, (walk.pending building 0).card))

/-- With a visit less is left: fewer nodes at the level of the visited one, no more above. -/
theorem outlook_lt {id : NodeId}
    (onward : Onward building (before.tree.level building id) before after)
    (inside : before.tree.contains id) (unseen : ¬ before.visited.contains id)
    (seen : after.visited.contains id) : after.outlook building < before.outlook building := by
  have falls := Finset.card_lt_card (pending_ssubset onward inside unseen seen)
  have stays : ∀ level, before.tree.level building id ≤ level →
      (after.pending building level).card ≤ (before.pending building level).card :=
    fun level reaches => Finset.card_le_card (pending_subset onward reaches)
  have bound := Tree.level_le_two building before.tree id
  generalize before.tree.level building id = level at falls stays bound
  simp only [outlook, Prod.Lex.toLex_lt_toLex]
  interval_cases level
  · have first := stays 2 (by omega)
    have second := stays 1 (by omega)
    omega
  · have first := stays 2 (by omega)
    omega
  · omega

structure Later (building : Bool) (before after : Walk σ) : Prop where
  size : before.tree.size ≤ after.tree.size
  seated : before.tree.Seated → after.tree.Seated
  outlook : after.outlook building ≤ before.outlook building

theorem later_refl (walk : Walk σ) : Later building walk walk :=
  ⟨Nat.le_refl _, id, le_refl _⟩

theorem Later.trans (first : Later building before middle) (second : Later building middle after) :
    Later building before after where
  size := Nat.le_trans first.size second.size
  seated := second.seated ∘ first.seated
  outlook := second.outlook.trans first.outlook

theorem Later.contains (later : Later building before after) {id : NodeId}
    (inside : before.tree.contains id) : after.tree.contains id :=
  Tree.contains_iff.mpr (Nat.lt_of_lt_of_le (Tree.contains_iff.mp inside) later.size)

end Walk

namespace Walk

variable {building : Bool} {rules : List Rule} (lowers : ∀ rule ∈ rules, rule.Lowers building)
variable (context : Context)

include lowers

/-- Each place settles, and the node to go on with is in the arena. -/
theorem settle_ends {walk : Walk Log} {link : Option Link} {current : NodeId}
    (linked : ∀ place, link = some place → walk.tree.contains place.parent)
    (inside : walk.tree.contains current) (left : Nat) :
    ∃ settled after,
      (settle (Pass.visitor rules context) link left current).run walk = (.ok settled, after)
      ∧ Onward building (walk.tree.level building current) walk after
      ∧ (settled = .done ∨ ∃ node, settled = .descend node ∧ after.tree.contains node) := by
  induction left generalizing walk current with
  | zero => exact ⟨_, _, rfl, ⟨Tree.spawns_refl _, fun _ => id⟩, Or.inr ⟨current, rfl, inside⟩⟩
  | succ left ih =>
      obtain ⟨spawns, told⟩ := Pass.offer_within lowers context (walk.tree.parent? current)
        (walk.tree.anchor? current) (Nat.le_refl (walk.tree.level building current))
        (Or.inl rfl : Verdict.unchanged.Within building _ walk.tree) walk.state
      have visits := Pass.run_visitor rules context current walk
      unfold Pass.answerAt at visits
      generalize Pass.offer context (walk.tree.parent? current) (walk.tree.anchor? current) rules
        current .unchanged walk.tree walk.state = answer at spawns told visits
      rcases answer with ⟨verdict, tree, log⟩
      have offered : Onward building (walk.tree.level building current) walk
          { walk with tree, state := log } := ⟨spawns, fun _ => id⟩
      have still : tree.contains current := spawns.contains inside
      rcases told with same | ⟨new, replaced, entering, low⟩
      · cases same
        exact ⟨_, _, settle_unchanged visits link left, offered, Or.inr ⟨current, rfl, still⟩⟩
      · cases replaced
        by_cases same : new = current
        · subst same
          exact ⟨_, _, settle_same visits link left, offered, Or.inr ⟨new, rfl, still⟩⟩
        · have answers : ∀ size index,
              ((Edit.replaceAt link current new).run tree).1 ≠ .error (.missing size index) :=
            Edit.replaceAt_answers (fun place stands => spawns.contains (linked place stands)) still
              entering
          have carried : tree.Spawns building (walk.tree.level building current)
              ((Edit.replaceAt link current new).run tree).2 :=
            (Edit.replaceAt_ventures link current new tree).spawns
          generalize ran : (Edit.replaceAt link current new).run tree = result at answers carried
          rcases result with ⟨(error | ⟨size, index⟩) | ⟨⟩, edited⟩
          · exact ⟨_, _, settle_refused visits same ran left, ⟨spawns.trans carried, fun _ => id⟩,
              Or.inr ⟨current, rfl, carried.contains still⟩⟩
          · exact absurd rfl (answers size index)
          · rw [settle_replaced visits same ran left]
            by_cases seen : walk.visited.contains new
            · rw [if_pos seen]
              exact ⟨_, _, rfl, ⟨spawns.trans carried, fun _ => id⟩, Or.inl rfl⟩
            · rw [if_neg seen]
              let marked : Walk Log :=
                { walk with
                  tree := edited, state := log, changes := walk.changes + 1
                  visited := walk.visited.insert new }
              have onward : Onward building (walk.tree.level building current) walk marked :=
                ⟨spawns.trans carried, fun id known => by simp [marked, known]⟩
              have linkedNow : ∀ place, link = some place → marked.tree.contains place.parent :=
                fun place stands => onward.spawns.contains (linked place stands)
              have insideNow : marked.tree.contains new := carried.contains entering
              -- What took the place stands no higher, so that it is settled the same way.
              obtain ⟨settled, after, runs, further, rest⟩ := ih linkedNow insideNow
              have lower : marked.tree.level building new ≤ walk.tree.level building current :=
                Nat.le_trans (carried.lower new entering) low
              exact ⟨settled, after, runs, onward.trans (further.mono lower), rest⟩

-- With steps enough a walk comes to its end, and always to the same one.
def Ends (building : Bool) (before : Walk Log) (walk : Nat → Except Stop Unit × Walk Log) : Prop :=
  ∃ bound after, (∀ steps, bound ≤ steps → walk steps = (.ok (), after))
    ∧ Later building before after

/-- A visit ends if all that is left to do after it does, and it leaves less to do. -/
theorem visit_ends {walk : Walk Log} {id : NodeId} {link : Option Link}
    (linked : ∀ place, link = some place → walk.tree.contains place.parent)
    (inside : walk.tree.contains id) (unseen : ¬ walk.visited.contains id)
    (rest : ∀ {later : Walk Log} {node : NodeId}, later.outlook building < walk.outlook building →
      later.tree.contains node →
        Ends building later fun steps => (descend (Pass.visitor rules context) steps node).run later) :
    ∃ bound after, (∀ steps, bound ≤ steps →
        (visitNode (Pass.visitor rules context) steps id link).run
          { walk with visited := walk.visited.insert id } = (.ok (), after))
      ∧ Later building walk after ∧ after.outlook building < walk.outlook building := by
  let marked : Walk Log := { walk with visited := walk.visited.insert id }
  have linkedNow : ∀ place, link = some place → marked.tree.contains place.parent := linked
  obtain ⟨settled, middle, settles, further, goes⟩ :=
    settle_ends lowers context linkedNow inside cascadeLimit
  have onward : Onward building (walk.tree.level building id) walk middle :=
    ⟨further.spawns, fun other known => further.marks other (by simp [marked, known])⟩
  have less := outlook_lt onward inside unseen (further.marks id (by simp [marked]))
  have later : Later building walk middle :=
    ⟨onward.spawns.size, onward.spawns.seated, less.le⟩
  rcases goes with rfl | ⟨node, rfl, present⟩
  · refine ⟨1, middle, ?_, later, less⟩
    intro steps enough
    obtain ⟨steps, rfl⟩ : ∃ more, steps = more + 1 := ⟨steps - 1, by omega⟩
    rw [visitNode, run_bind_ok settles]
    rfl
  · obtain ⟨bound, after, ends, rests⟩ := rest less present
    refine ⟨bound + 1, after, ?_, later.trans rests, lt_of_le_of_lt rests.outlook less⟩
    intro steps enough
    obtain ⟨steps, rfl⟩ : ∃ more, steps = more + 1 := ⟨steps - 1, by omega⟩
    rw [visitNode, run_bind_ok settles]
    exact ends steps (by omega)

theorem descend_ends {walk : Walk Log} {parent : NodeId} (inside : walk.tree.contains parent) :
    Ends building walk fun steps =>
      (descend (Pass.visitor rules context) steps parent).run walk := by
  -- Every child that is visited leaves less to do, for those after it and for what is below it.
  induction left : walk.outlook building using WellFoundedLT.induction generalizing walk parent with
  | ind measure ih =>
      subst left
      cases next : walk.nextChild? parent with
      | none =>
          refine ⟨1, walk, ?_, later_refl walk⟩
          intro steps enough
          obtain ⟨steps, rfl⟩ : ∃ more, steps = more + 1 := ⟨steps - 1, by omega⟩
          dsimp only
          rw [descend, run_bind_ok (run_get walk), next]
          rfl
      | some child =>
          obtain ⟨slot, id⟩ := child
          have found := List.find?_some next
          simp only [Bool.and_eq_true, Bool.not_eq_true', beq_iff_eq] at found
          obtain ⟨unseen, named⟩ := found
          have unmarked : ¬ walk.visited.contains id := by simp [unseen]
          have linked : ∀ place, some (⟨parent, slot⟩ : Link) = some place →
              walk.tree.contains place.parent := by
            rintro _ ⟨⟩
            exact inside
          obtain ⟨visitBound, middle, visits, first, less⟩ := visit_ends lowers context linked
            (Tree.contains_of_parent? named) unmarked
            fun smaller present => ih _ smaller present rfl
          obtain ⟨bound, after, ends, second⟩ := ih _ less (first.contains inside) rfl
          refine ⟨max visitBound bound + 1, after, ?_, first.trans second⟩
          intro steps enough
          obtain ⟨steps, rfl⟩ : ∃ more, steps = more + 1 := ⟨steps - 1, by omega⟩
          dsimp only
          rw [descend, run_bind_ok (run_get walk), next]
          dsimp only
          rw [run_bind_ok (run_mark_fresh unmarked), run_bind_ok (visits steps (by omega))]
          exact ends steps (by omega)

/-- A walk over a whole tree. -/
theorem run_ends {tree : Tree} (seated : tree.Seated) (log : Log) :
    ∃ bound after, (∀ steps, bound ≤ steps →
        Walk.run (Pass.visitor rules context) steps tree log tree.root = (.ok (), after))
      ∧ after.tree.Seated := by
  obtain ⟨node, found⟩ := Tree.node?_of_contains seated.rooted
  let start : Walk Log := { tree, state := log }
  have linked : ∀ place, node.parent = some place → start.tree.contains place.parent := by
    intro place named
    apply seated.named
    rw [Tree.parent?, found]
    exact named
  obtain ⟨bound, after, visits, later, _⟩ := visit_ends lowers context linked seated.rooted
    Bool.false_ne_true fun _ present => descend_ends lowers context present
  refine ⟨bound, after, ?_, later.seated seated⟩
  intro steps enough
  rw [Walk.run, subtree, run_bind_ok (run_get _)]
  dsimp only
  rw [found]
  exact visits steps enough

end Walk

namespace Run

variable {building : Bool} {rules : List Rule} (context : Context)

theorem passes_end (lowers : ∀ rule ∈ rules, rule.Lowers building) (left : Nat)
    (outcome : RunOutcome) {tree : Tree} (seated : tree.Seated) :
    ∃ bound ended after,
      (∀ steps, bound ≤ steps → passes rules steps context left outcome tree = (.ok ended, after))
      ∧ ended.passes ≤ outcome.passes + left
      ∧ (ended.converged = false → ended.passes = outcome.passes + left) := by
  induction left generalizing outcome tree with
  | zero => exact ⟨0, outcome, tree, fun _ _ => rfl, Nat.le_refl _, fun _ => rfl⟩
  | succ left ih =>
      obtain ⟨walkBound, walk, walks, still⟩ :=
        Walk.run_ends lowers context seated outcome.log
      let log := (Pass.walkDiagnostics walk).foldl Log.report walk.state
      let passed := { outcome with passes := outcome.passes + 1, log }
      by_cases same : walk.tree.revision = tree.revision
      · refine ⟨walkBound, { passed with converged := true }, walk.tree, ?_, ?_, nofun⟩
        · intro steps enough
          rw [passes, walks steps enough]
          exact if_pos same
        · exact Nat.add_le_add_left (Nat.le_add_left 1 left) _
      · obtain ⟨bound, ended, after, ends, few, used⟩ :=
          ih { passed with editingPasses := outcome.editingPasses + 1 } still
        have counted : outcome.passes + 1 + left = outcome.passes + (left + 1) := by omega
        rw [← counted]
        refine ⟨max walkBound bound, ended, after, ?_, few, used⟩
        intro steps enough
        rw [passes, walks steps (by omega)]
        dsimp only
        rw [if_neg same]
        exact ends steps (by omega)

/-- The root of a program that was read is held by nothing. -/
theorem ofProgram_seated (source : String) (program : List Php.Statement) :
    (Tree.ofProgram source program).Seated := by
  have fresh := Tree.ofProgram_read source program
  constructor
  · exact Tree.contains_iff.mpr fresh.rooted.2
  · intro link named
    rw [fresh.unheld] at named
    cases named

/-- Runs of catalog rules end, with the passes that were asked for or fewer, and say so where the tree
was still changing: with steps enough a run always answers, and always the same. The rules may be any
but the one pair that feed each other, where one wraps arguments in creations and the other makes calls
of creations. -/
theorem catalog_run_ends (source : String) (program : List Php.Statement) {specs : List RuleSpec}
    {rules : List Rule} (built : Catalog.build specs = .ok rules)
    (apart : (∀ spec ∈ specs, spec.id ≠ "wrap_arguments")
      ∨ ∀ spec ∈ specs, spec.id ≠ "new_to_builder") (context : Context) (maxPasses : Nat) :
    ∃ bound outcome after,
      (∀ steps, bound ≤ steps →
        run rules ⟨maxPasses, steps⟩ context (Tree.ofProgram source program) = (.ok outcome, after))
      ∧ outcome.passes ≤ max maxPasses 1
      ∧ (outcome.converged = false → outcome.passes = max maxPasses 1
        ∧ ∃ diagnostic ∈ outcome.log.diagnostics, diagnostic.kind = .nonConvergence) := by
  obtain ⟨building, lowers⟩ := Catalog.lowers_of_build built apart
  obtain ⟨bound, ended, after, ends, few, used⟩ := passes_end context lowers (max maxPasses 1) {}
    (ofProgram_seated source program)
  have starts : ({} : RunOutcome).passes + max maxPasses 1 = max maxPasses 1 := Nat.zero_add _
  refine ⟨bound, concluded ended, after, ?_, ?_, ?_⟩
  · intro steps enough
    rw [run_eq, ends steps enough]
    rfl
  · rw [concluded_passes]
    omega
  · intro unsettled
    rw [concluded_converged] at unsettled
    have all := used unsettled
    refine ⟨by rw [concluded_passes]; omega, ?_⟩
    rw [concluded, if_neg (by simp [unsettled])]
    exact ⟨_, List.mem_append_right _ List.mem_cons_self, rfl⟩

/-- Wrapping the argument of `to` ends, also where one pass is too few to see that nothing is left. -/
theorem catalog_run_ends_wrapping : Catalog.build wrapSpecs = .ok wrapRules
    ∧ (∀ spec ∈ wrapSpecs, spec.id ≠ "new_to_builder")
    ∧ ∃ bound outcome after,
      (∀ steps, bound ≤ steps →
        run wrapRules ⟨1, steps⟩ {} (Tree.ofProgram "<?php $m->to('a');" sendProgram)
          = (.ok outcome, after))
      ∧ outcome.passes ≤ 1
      ∧ (outcome.converged = false → outcome.passes = 1
        ∧ ∃ diagnostic ∈ outcome.log.diagnostics, diagnostic.kind = .nonConvergence) := by
  have built : Catalog.build wrapSpecs = .ok wrapRules := Catalog.build_getD (by decide +kernel)
  have unbuilt : ∀ spec ∈ wrapSpecs, spec.id ≠ "new_to_builder" := by decide +kernel
  exact ⟨built, unbuilt, catalog_run_ends "<?php $m->to('a');" sendProgram built (Or.inr unbuilt) {} 1⟩

end Run

end Codemod
