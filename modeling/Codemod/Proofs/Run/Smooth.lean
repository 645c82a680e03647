import Codemod.Proofs.Catalog.Rebuild
import Codemod.Proofs.Run.Isolation
import Codemod.Proofs.Tree.Spelling

/-!
Runs of safe rules. Each application reworks the subtree of a node, the walk puts what comes of it in
the place of the node, and the passes go on from there: at the end of every pass each node is held
once, nothing was refused on the way, and the tree can be printed.
-/

namespace Codemod

open Step

/-- With another node for the old one, what was reworked is the head of what was gathered. -/
theorem Tree.Reworked.gathered {before after : Tree} {old new : NodeId}
    (reworked : before.Reworked old after new) (differ : new ≠ old) :
    before.Gathered old after [new] ∧ ¬ before.contains new := by
  have settled : ¬ before.contains new ∧ after.contains new ∧ after.parent? new = none := by
    rcases reworked.settled with same | settled
    · exact absurd same differ
    · exact settled
  have only : ∀ {head}, head ∈ [new] → head = new := List.mem_singleton.mp
  refine ⟨?_, settled.1⟩
  constructor
  case source => exact reworked.source
  case root => exact reworked.root
  case size => exact reworked.size
  case counts => exact reworked.counts
  case nodup => simp
  case inside =>
    intro head member
    rw [only member]
    exact settled.2.1
  case tidy =>
    intro head member
    rw [only member]
    exact reworked.tidy
  case apart =>
    intro first firstMember second secondMember apart
    exact absurd ((only firstMember).trans (only secondMember).symm) apart
  case reach =>
    intro head member id below
    rw [only member] at below
    rcases reworked.reach below with ⟨inner, held⟩ | fresh
    · exact Or.inl ⟨inner, fun same => differ (held same)⟩
    · exact Or.inr fresh
  case frame => exact reworked.frame
  case place => exact reworked.place
  case kinds => exact reworked.kinds
  case proper => exact reworked.proper

namespace Pass

/-- The subtree of the node was reworked without complaint, and the verdict says into what. -/
def Goes (tree : Tree) (node : NodeId) (log : Log) (verdict : Verdict)
    (answer : Verdict × Tree × Log) : Prop :=
  ∃ new, tree.Reworked node answer.2.1 new ∧ answer.2.2.diagnostics = log.diagnostics
    ∧ (answer.1 = verdict ∧ new = node ∨ answer.1 = .replaced new)

section

variable {tree : Tree} {node : NodeId} (context : Context) (link : Option Link)
variable (anchor : Option Span)

theorem applyRule_goes {rule : Rule} (safe : rule.Safe) (proper : tree.Proper)
    (inside : tree.contains node) (tidy : tree.Tidy node)
    (offered : (tree.kind? node).any rule.kinds.contains) (log : Log) :
    Goes tree node log .unchanged (applyRule rule context node link anchor tree log) := by
  have opened : tree.Reworked node tree.checkpoint node := Tree.reworked_of_commit tidy rfl
  obtain ⟨accepted, answers⟩ := safe.accepts (opened.proper proper) node context
  have attempts := run_attempt rule context node tree.checkpoint
  rw [answers] at attempts
  unfold applyRule
  cases accepted with
  | false =>
      rw [attempts]
      exact ⟨node, Tree.reworked_of_commit tidy rfl, rfl, Or.inl ⟨rfl, rfl⟩⟩
  | true =>
      obtain ⟨verdict, edited, new, applies, reworked, told⟩ := safe.applies (opened.proper proper)
        (Tree.grown opened.size inside) opened.tidy offered context
      have closed : edited.Reworked new edited.commit new :=
        Tree.reworked_of_commit reworked.tidy rfl
      have whole := (opened.trans inside reworked).trans inside closed
      have checked : check edited verdict node link = .ok () := by
        rcases told with ⟨rfl, _⟩ | rfl
        · rfl
        · exact if_pos (reworked.contains (Tree.grown opened.size inside))
      rw [applies] at attempts
      rw [attempts]
      dsimp only
      rw [checked]
      refine ⟨new, whole, ?_, told⟩
      dsimp only
      split <;> rfl

theorem offer_goes {rules : List Rule} (safe : ∀ rule ∈ rules, rule.Safe) (proper : tree.Proper)
    (inside : tree.contains node) (tidy : tree.Tidy node) (verdict : Verdict) (log : Log) :
    Goes tree node log verdict (offer context link anchor rules node verdict tree log) := by
  induction rules generalizing tree node verdict log with
  | nil => exact ⟨node, tidy.reworked, rfl, Or.inl ⟨rfl, rfl⟩⟩
  | cons rule rest ih =>
      have others : ∀ rule ∈ rest, rule.Safe :=
        fun rule member => safe rule (List.mem_cons_of_mem _ member)
      unfold offer
      split
      · next offered =>
          have goes := applyRule_goes context link anchor (safe rule List.mem_cons_self) proper
            inside tidy offered log
          generalize applyRule rule context node link anchor tree log = answer at goes
          rcases answer with ⟨answered, after, entries⟩
          obtain ⟨new, reworked, reports, told⟩ := goes
          have later := fun verdict => ih others (reworked.proper proper) (reworked.contains inside)
            reworked.tidy verdict entries
          dsimp only at reworked reports told
          -- The rules that are left see what has come of the node.
          by_cases same : new = node
          · subst same
            obtain ⟨last, further, also, ended⟩ := later verdict
            have goes : Goes tree new log verdict
                (offer context link anchor rest new verdict after entries) :=
              ⟨last, reworked.trans inside further, also.trans reports, ended⟩
            rcases told with ⟨rfl, _⟩ | rfl
            · exact goes
            · simpa using goes
          · have replaced : answered = .replaced new := by
              rcases told with ⟨_, kept⟩ | replaced
              · exact absurd kept same
              · exact replaced
            subst replaced
            obtain ⟨last, further, also, ended⟩ := later (.replaced new)
            dsimp only
            rw [if_neg same]
            refine ⟨last, reworked.trans inside further, also.trans reports, Or.inr ?_⟩
            rcases ended with ⟨kept, rfl⟩ | replaced
            · exact kept
            · exact replaced
      · exact ih others proper inside tidy verdict log

/-- A program as a whole is offered to no rule. -/
theorem offer_program {rules : List Rule} (safe : ∀ rule ∈ rules, rule.Safe)
    (kind : tree.kind? node = some .program) (verdict : Verdict) (log : Log) :
    offer context link anchor rules node verdict tree log = (verdict, tree, log) := by
  induction rules with
  | nil => rfl
  | cons rule rest ih =>
      have refused : ¬ (tree.kind? node).any rule.kinds.contains := by
        rw [kind, Option.any_some, (safe rule List.mem_cons_self).inner]
        exact nofun
      rw [offer, if_neg refused]
      exact ih fun rule member => safe rule (List.mem_cons_of_mem _ member)

end

theorem run_visitor (rules : List Rule) (context : Context) (node : NodeId) (walk : Walk Log) :
    (visitor rules context node).run walk = (.ok (answerAt rules context node walk.tree walk.state).1,
      { walk with
        tree := (answerAt rules context node walk.tree walk.state).2.1
        state := (answerAt rules context node walk.tree walk.state).2.2 }) := rfl

end Pass

namespace Walk

structure Smooth (before : Walk Log) (top : NodeId) (after : Walk Log) : Prop where
  reworked : before.tree.Reworked top after.tree top
  errors : after.errors = before.errors
  reports : after.state.diagnostics = before.state.diagnostics

theorem Smooth.trans {before middle after : Walk Log} {top : NodeId}
    (inside : before.tree.contains top) (first : Smooth before top middle)
    (second : Smooth middle top after) : Smooth before top after where
  reworked := first.reworked.trans inside second.reworked
  errors := second.errors.trans first.errors
  reports := second.reports.trans first.reports

theorem Smooth.lift {before after : Walk Log} {top old : NodeId} (smooth : Smooth before old after)
    (tidy : before.tree.Tidy top) (below : before.tree.Below top old)
    (inside : before.tree.contains top) : Smooth before top after where
  reworked := smooth.reworked.lift tidy below inside
  errors := smooth.errors
  reports := smooth.reports

def Goes {α : Type} (before : Walk Log) (top : NodeId) (result : Except Stop α × Walk Log) : Prop :=
  Smooth before top result.2 ∧ ∀ stop, result.1 = .error stop → stop = .exhausted

structure Ready (walk : Walk Log) (top : NodeId) : Prop where
  proper : walk.tree.Proper
  inside : walk.tree.contains top
  tidy : walk.tree.Tidy top

theorem Ready.smooth {walk : Walk Log} {top : NodeId} (ready : Ready walk top) :
    Smooth walk top walk :=
  ⟨ready.tidy.reworked, rfl, rfl⟩

theorem Ready.after {before after : Walk Log} {top : NodeId} (ready : Ready before top)
    (smooth : Smooth before top after) : Ready after top where
  proper := smooth.reworked.proper ready.proper
  inside := Tree.grown smooth.reworked.size ready.inside
  tidy := smooth.reworked.tidy

theorem Ready.sub {walk : Walk Log} {top id : NodeId} (ready : Ready walk top)
    (below : walk.tree.Below top id) : Ready walk id where
  proper := ready.proper
  inside := ready.tidy.contains_below ready.inside below
  tidy := ready.tidy.sub below

/-- Marks are no concern of the tree. -/
theorem Smooth.marked {before after : Walk Log} {top : NodeId} (smooth : Smooth before top after)
    (visited : NodeSet) : Smooth before top { after with visited } :=
  ⟨smooth.reworked, smooth.errors, smooth.reports⟩

section

variable {rules : List Rule} (context : Context) {walk : Walk Log} {parent : NodeId}

def Settles (before : Walk Log) (parent : NodeId) (slot : Slot)
    (result : Except Stop Settled × Walk Log) : Prop :=
  ∃ settled after, result = (.ok settled, after) ∧ Smooth before parent after
    ∧ (settled = .done ∨ ∃ node, settled = .descend node
      ∧ (slot, node) ∈ after.tree.children parent)

theorem settle_goes (safe : ∀ rule ∈ rules, rule.Safe) (ready : Ready walk parent) {slot : Slot}
    {current : NodeId} (held : (slot, current) ∈ walk.tree.children parent) (left : Nat) :
    Settles walk parent slot
      ((settle (Pass.visitor rules context) (some ⟨parent, slot⟩) left current).run walk) := by
  induction left generalizing walk current with
  | zero =>
      refine ⟨_, _, rfl, ?_, Or.inr ⟨current, rfl, held⟩⟩
      exact ⟨ready.tidy.reworked, rfl, rfl⟩
  | succ left ih =>
      have below : walk.tree.Below parent current := .child .self held
      have at_node := ready.sub below
      have goes := Pass.offer_goes context (walk.tree.parent? current) (walk.tree.anchor? current)
        safe ready.proper at_node.inside at_node.tidy .unchanged walk.state
      have visits := Pass.run_visitor rules context current walk
      unfold Pass.answerAt at visits
      generalize Pass.offer context (walk.tree.parent? current) (walk.tree.anchor? current) rules
        current .unchanged walk.tree walk.state = answer at goes visits
      rcases answer with ⟨verdict, tree, log⟩
      obtain ⟨new, reworked, reports, told⟩ := goes
      dsimp only at reworked reports told ⊢
      by_cases same : new = current
      · -- The rules have worked below the holder, so that it holds the node still.
        subst same
        have smooth : Smooth walk parent { walk with tree, state := log } :=
          ⟨reworked.lift ready.tidy below ready.inside, rfl, reports⟩
        have stays : (slot, new) ∈ tree.children parent := by
          rw [Tree.children, Tree.shape?_of_node_eq
            (reworked.frame ready.inside (ready.tidy.not_below_child .self held))]
          exact held
        rcases told with ⟨rfl, _⟩ | rfl
        · exact ⟨_, _, settle_unchanged visits _ left, smooth, Or.inr ⟨new, rfl, stays⟩⟩
        · exact ⟨_, _, settle_same visits _ left, smooth, Or.inr ⟨new, rfl, stays⟩⟩
      · have replaced : verdict = .replaced new := by
          rcases told with ⟨_, kept⟩ | replaced
          · exact absurd kept same
          · exact replaced
        subst replaced
        obtain ⟨gathered, fresh⟩ := reworked.gathered same
        obtain ⟨after, replaces, swapped⟩ :=
          Tree.run_replaceAt_head ⟨parent, slot⟩ gathered ready.tidy held fresh
        have smooth : Smooth walk parent
            { walk with tree := after, state := log, changes := walk.changes + 1 } :=
          ⟨swapped.reworked, rfl, reports⟩
        -- The replacement stands in the slot, where the cascade goes on from it.
        have holds : (slot, new) ∈ after.children parent :=
          swapped.children.mpr (Or.inl ⟨rfl, rfl⟩)
        rw [settle_replaced visits same replaces left]
        by_cases seen : walk.visited.contains new
        · rw [if_pos seen]
          exact ⟨_, _, rfl, smooth, Or.inl rfl⟩
        · rw [if_neg seen]
          have marked := smooth.marked (walk.visited.insert new)
          obtain ⟨settled, ended, runs, further, rest⟩ := ih (ready.after marked) holds
          exact ⟨settled, ended, runs, marked.trans ready.inside further, rest⟩

end

-- What one step does well, a walk does well.

section

variable {α β : Type} {before : Walk Log} {top : NodeId} {step : Walking Log α}

theorem Goes.bind {next : α → Walking Log β} (inside : before.tree.contains top)
    (first : Goes before top (step.run before))
    (second : ∀ value middle, step.run before = (.ok value, middle) → Smooth before top middle →
      Goes middle top ((next value).run middle)) :
    Goes before top ((step >>= next).run before) := by
  obtain ⟨smooth, stops⟩ := first
  generalize ran : step.run before = result at smooth stops
  rcases result with ⟨stop | value, middle⟩
  · rw [run_bind_error ran]
    refine ⟨smooth, ?_⟩
    intro other same
    cases same
    exact stops stop rfl
  · rw [run_bind_ok ran]
    obtain ⟨further, ends⟩ := second value middle ran smooth
    exact ⟨smooth.trans inside further, ends⟩

theorem Goes.lift {old : NodeId} {result : Except Stop α × Walk Log} (goes : Goes before old result)
    (tidy : before.tree.Tidy top) (below : before.tree.Below top old)
    (inside : before.tree.contains top) : Goes before top result :=
  ⟨goes.1.lift tidy below inside, goes.2⟩

theorem mark_goes (ready : Ready before top) (id : NodeId) :
    Goes before top ((mark id).run before) := by
  rw [run_mark]
  split
  · exact ⟨ready.smooth, nofun⟩
  · exact ⟨ready.smooth.marked _, nofun⟩

end

section

variable {rules : List Rule} (context : Context)

theorem visits_go (safe : ∀ rule ∈ rules, rule.Safe) (steps : Nat) :
    (∀ {walk : Walk Log} {parent : NodeId} {slot : Slot} {id : NodeId}, Ready walk parent →
        (slot, id) ∈ walk.tree.children parent → Goes walk parent
          ((visitNode (Pass.visitor rules context) steps id (some ⟨parent, slot⟩)).run walk))
      ∧ ∀ {walk : Walk Log} {parent : NodeId}, Ready walk parent → Goes walk parent
          ((descend (Pass.visitor rules context) steps parent).run walk) := by
  -- The two recursions call each other with fewer steps, so they are followed together.
  induction steps with
  | zero =>
      have stopped : ∀ {walk : Walk Log} {parent : NodeId}, Ready walk parent → Goes walk parent
          ((throw .exhausted : Walking Log Unit).run walk) := by
        intro walk parent ready
        refine ⟨ready.smooth, ?_⟩
        intro stop same
        cases same
        rfl
      exact ⟨fun ready _ => stopped ready, fun ready => stopped ready⟩
  | succ steps ih =>
      obtain ⟨visitIh, descendIh⟩ := ih
      constructor
      · intro walk parent slot id ready held
        obtain ⟨settled, after, settles, smooth, rest⟩ :=
          settle_goes context safe ready held cascadeLimit
        rw [visitNode, run_bind_ok settles]
        rcases rest with rfl | ⟨node, rfl, holds⟩
        · exact ⟨smooth, by rintro _ ⟨⟩⟩
        · have later := ready.after smooth
          have goes := descendIh (later.sub (.child .self holds))
          have lifted := goes.lift later.tidy (.child .self holds) later.inside
          exact ⟨smooth.trans ready.inside lifted.1, lifted.2⟩
      · intro walk parent ready
        rw [descend, run_bind_ok (run_get walk)]
        cases next : walk.nextChild? parent with
        | none => exact ⟨ready.smooth, by rintro _ ⟨⟩⟩
        | some child =>
            have held : child ∈ walk.tree.children parent := List.mem_of_find?_eq_some next
            refine (mark_goes ready child.2).bind ready.inside ?_
            intro _ marked marks smooth
            have still : marked.tree = walk.tree := by
              rw [run_mark] at marks
              split at marks <;> cases marks <;> rfl
            rw [← still] at held
            have later := ready.after smooth
            refine (visitIh later held).bind later.inside ?_
            intro _ visited _ further
            exact descendIh (later.after further)

/-- A walk from the program at the root. -/
theorem run_goes (safe : ∀ rule ∈ rules, rule.Safe) (steps : Nat) {tree : Tree} (log : Log)
    (ready : Ready { tree, state := log } tree.root)
    (kind : tree.kind? tree.root = some .program) :
    Goes { tree, state := log } tree.root
      (Walk.run (Pass.visitor rules context) steps tree log tree.root) := by
  obtain ⟨shape, found, _⟩ := Option.map_eq_some_iff.mp kind
  obtain ⟨node, present, _⟩ := Option.map_eq_some_iff.mp found
  rw [Walk.run, subtree, run_bind_ok (run_get _)]
  dsimp only
  rw [present]
  refine (mark_goes ready tree.root).bind ready.inside ?_
  intro _ marked marks smooth
  have still : marked.tree = tree := by
    rw [run_mark] at marks
    split at marks <;> cases marks <;> rfl
  have later := ready.after smooth
  cases steps with
  | zero =>
      refine ⟨later.smooth, ?_⟩
      intro stop same
      cases same
      rfl
  | succ steps =>
      have program : marked.tree.kind? tree.root = some .program := by
        rw [still]
        exact kind
      have visits : (Pass.visitor rules context tree.root).run marked = (.ok .unchanged, marked) := by
        rw [Pass.run_visitor, Pass.answerAt, Pass.offer_program context _ _ safe program]
      have settles : (settle (Pass.visitor rules context) node.parent cascadeLimit tree.root).run
          marked = (.ok (.descend tree.root), marked) := by
        rw [cascadeLimit, settle, run_bind_ok visits]
        rfl
      rw [visitNode, run_bind_ok settles]
      exact (visits_go context safe steps).2 later

end

end Walk

def Log.Clean (log : Log) : Prop :=
  ∀ diagnostic ∈ log.diagnostics, diagnostic.isError = false

theorem Log.Clean.report {log : Log} (clean : log.Clean) {diagnostic : Diagnostic}
    (warning : diagnostic.isError = false) : (log.report diagnostic).Clean := by
  intro other member
  rcases List.mem_append.mp member with early | last
  · exact clean other early
  · cases List.mem_singleton.mp last
    exact warning

theorem RunOutcome.clean_concluded {outcome : RunOutcome} (clean : outcome.log.Clean) :
    (Run.concluded outcome).log.Clean := by
  unfold Run.concluded
  split
  · exact clean
  · exact clean.report rfl

theorem Log.Clean.reports {log : Log} (clean : log.Clean) {diagnostics : List Diagnostic}
    (warnings : ∀ diagnostic ∈ diagnostics, diagnostic.isError = false) :
    (diagnostics.foldl Log.report log).Clean := by
  induction diagnostics generalizing log with
  | nil => exact clean
  | cons diagnostic rest ih =>
      apply ih (clean.report (warnings diagnostic List.mem_cons_self))
      exact fun other member => warnings other (List.mem_cons_of_mem _ member)

/-- A walk that refused nothing can only report that it stopped replacing a node. -/
theorem Pass.walkDiagnostics_clean {walk : Walk Log} (errors : walk.errors = []) :
    ∀ diagnostic ∈ walkDiagnostics walk, diagnostic.isError = false := by
  intro diagnostic member
  rw [walkDiagnostics, errors] at member
  obtain ⟨node, _, rfl⟩ := List.mem_map.mp member
  rfl

namespace Run

structure Fit (tree : Tree) : Prop where
  proper : tree.Proper
  tidy : tree.Tidy tree.root
  rooted : tree.kind? tree.root = some .program

section

variable {tree : Tree}

theorem fit_ofProgram {source : String} {program : List Php.Statement}
    (inner : ∀ place ∈ Php.statementPlaces program, Text.Laid source place.1 place.2)
    (outer : Text.Laid source ⟨0, source.utf8ByteSize⟩ (program.map Php.Statement.span)) :
    Fit (Tree.ofProgram source program) :=
  ⟨Tree.ofProgram_proper inner outer, Tree.ofProgram_tidy, Tree.ofProgram_rooted⟩

theorem Fit.inside (fit : Fit tree) : tree.contains tree.root :=
  fit.proper.sound.rooted

theorem Fit.reworked {after : Tree} (fit : Fit tree)
    (reworked : tree.Reworked tree.root after tree.root) : Fit after where
  proper := reworked.proper fit.proper
  tidy := reworked.root.symm ▸ reworked.tidy
  rooted := by rw [reworked.root, reworked.kinds fit.inside, fit.rooted]

theorem Fit.print (fit : Fit tree) (printing : PrintOptions) :
    ∃ text, tree.print printing = .ok text := by
  have covers := Tree.print_covers fit.proper.sound (Tree.heldOnce_iff_tidy.mpr fit.tidy) printing
  cases printed : tree.print printing with
  | ok text => exact ⟨text, rfl⟩
  | error error =>
      rw [printed] at covers
      obtain ⟨id, _, lacks, _⟩ := covers
      exact absurd lacks (fit.proper.sourced id)

end

section

variable {rules : List Rule} (context : Context) (safe : ∀ rule ∈ rules, rule.Safe)

include safe in
theorem pass_goes (steps : Nat) {tree : Tree} (fit : Fit tree) (log : Log) :
    Walk.Goes { tree, state := log } tree.root
      (Walk.run (Pass.visitor rules context) steps tree log tree.root) :=
  Walk.run_goes context safe steps log ⟨fit.proper, fit.inside, fit.tidy⟩ fit.rooted

include safe in
theorem passes_go (steps left : Nat) {outcome : RunOutcome} {tree : Tree} (fit : Fit tree)
    (clean : outcome.log.Clean) :
    Fit (passes rules steps context left outcome tree).2
      ∧ (∀ stop, (passes rules steps context left outcome tree).1 = .error stop → stop = .exhausted)
      ∧ ∀ ended, (passes rules steps context left outcome tree).1 = .ok ended → ended.log.Clean := by
  induction left generalizing outcome tree with
  | zero =>
      refine ⟨fit, nofun, ?_⟩
      intro ended same
      cases same
      exact clean
  | succ left ih =>
      obtain ⟨smooth, stops⟩ := pass_goes context safe steps fit outcome.log
      rw [passes]
      generalize Walk.run (Pass.visitor rules context) steps tree outcome.log tree.root = result
        at smooth stops
      rcases result with ⟨stop | ⟨⟩, walk⟩
      · refine ⟨fit.reworked smooth.reworked, ?_, by rintro _ ⟨⟩⟩
        intro other same
        cases same
        exact stops stop rfl
      · have walked : walk.state.Clean := by
          intro diagnostic member
          rw [smooth.reports] at member
          exact clean diagnostic member
        have reported := walked.reports (Pass.walkDiagnostics_clean smooth.errors)
        dsimp only
        split
        · refine ⟨fit.reworked smooth.reworked, by rintro _ ⟨⟩, ?_⟩
          intro ended same
          cases same
          exact reported
        · exact ih (fit.reworked smooth.reworked) reported

end

/-- Rules of the catalog, the one that flattens chains apart, never fail and never break the tree of
a program whose spans lie in each other as its constructs do. Whenever a pass has ended, every node
that can be reached is held by the one slot that its back-reference names; whenever a run returns, it
has reported no error and its tree can be printed; and a run ends in no other way but for want of
steps. -/
theorem catalog_keeps_trees {source : String} {program : List Php.Statement}
    (inner : ∀ place ∈ Php.statementPlaces program, Text.Laid source place.1 place.2)
    (outer : Text.Laid source ⟨0, source.utf8ByteSize⟩ (program.map Php.Statement.span))
    {specs : List RuleSpec} {rules : List Rule} (built : Catalog.build specs = .ok rules)
    (plain : ∀ spec ∈ specs, spec.id ≠ "extract_chain_arguments") (context : Context) (steps : Nat) :
    (∀ count outcome after,
        passes rules steps context count {} (Tree.ofProgram source program) = (.ok outcome, after) →
          after.HeldOnce)
      ∧ (∀ maxPasses outcome after,
        run rules ⟨maxPasses, steps⟩ context (Tree.ofProgram source program) = (.ok outcome, after) →
          (∀ diagnostic ∈ outcome.log.diagnostics, diagnostic.isError = false)
            ∧ ∀ printing, ∃ text, after.print printing = .ok text)
      ∧ ∀ maxPasses stop after,
        run rules ⟨maxPasses, steps⟩ context (Tree.ofProgram source program) = (.error stop, after) →
          stop = .exhausted := by
  have safe := Catalog.safe_of_build built plain
  have fit := fit_ofProgram inner outer
  have start : ({} : RunOutcome).log.Clean := nofun
  have goes := fun count => passes_go context safe steps count fit start
  refine ⟨?_, ?_, ?_⟩
  · intro count outcome after ran
    have tidy := (goes count).1.tidy
    rw [ran] at tidy
    exact Tree.heldOnce_iff_tidy.mpr tidy
  · intro maxPasses outcome after ran
    obtain ⟨kept, _, clean⟩ := goes (max maxPasses 1)
    obtain ⟨ended, made, rfl⟩ := run_eq_ok ran
    rw [made] at kept clean
    exact ⟨RunOutcome.clean_concluded (clean ended rfl), kept.print⟩
  · intro maxPasses stop after ran
    obtain ⟨_, stops, _⟩ := goes (max maxPasses 1)
    rw [run_eq] at ran
    generalize passes rules steps context (max maxPasses 1) {} (Tree.ofProgram source program)
      = result at ran stops
    rcases result with ⟨other | ended, finished⟩
    · cases ran
      exact stops stop rfl
    · cases ran

-- The statement `$m->to('a');`.
def sendProgram : List Php.Statement :=
  [.expression ⟨6, 18⟩ (.methodCall ⟨6, 17⟩ (.variable ⟨6, 8⟩) (.identifier ⟨10, 12⟩)
    (.mk ⟨12, 17⟩ [.positional ⟨13, 16⟩ false (.literal ⟨13, 16⟩)]) false)]

def wrapSpecs : List RuleSpec :=
  [⟨"wrap_arguments", [("class", .string "Address"), ("methods", .stringMap [("to", "")])]⟩]

def wrapRules : List Rule :=
  (Catalog.build wrapSpecs).toOption.getD []

def wrapRun : Except Stop RunOutcome × Tree :=
  run wrapRules ⟨3, 40⟩ {} (Tree.ofProgram "<?php $m->to('a');" sendProgram)

/-- The argument moves into a new object while its list is still held by the call. -/
theorem catalog_keeps_wrapped : Catalog.build wrapSpecs = .ok wrapRules
    ∧ ∃ outcome after, wrapRun = (.ok outcome, after) ∧ outcome.editingPasses = 1
      ∧ (∀ diagnostic ∈ outcome.log.diagnostics, diagnostic.isError = false)
      ∧ (after.print {}).toOption = some "<?php $m->to(new Address('a'));" := by
  have built : Catalog.build wrapSpecs = .ok wrapRules := Catalog.build_getD (by decide +kernel)
  have plain : ∀ spec ∈ wrapSpecs, spec.id ≠ "extract_chain_arguments" := by decide +kernel
  have counts : (wrapRun.1.toOption.map RunOutcome.editingPasses) = some 1 := by decide +kernel
  have printed : (wrapRun.2.print {}).toOption = some "<?php $m->to(new Address('a'));" := by
    decide +kernel
  have inner : ∀ place ∈ Php.statementPlaces sendProgram,
      Text.Laid "<?php $m->to('a');" place.1 place.2 := by decide
  have outer : Text.Laid "<?php $m->to('a');" ⟨0, 18⟩ (sendProgram.map Php.Statement.span) := by
    decide
  obtain ⟨_, clean, _⟩ := catalog_keeps_trees inner outer built plain {} 40
  refine ⟨built, ?_⟩
  generalize ran : wrapRun = result at counts printed
  rcases result with ⟨stop | outcome, after⟩
  · cases counts
  · exact ⟨outcome, after, rfl, Option.some.inj counts, (clean 3 outcome after ran).1, printed⟩

end Run

end Codemod
