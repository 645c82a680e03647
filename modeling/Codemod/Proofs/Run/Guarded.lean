import Codemod.Proofs.Run.Smooth

/-!
Rules that are tried only where a condition holds of the tree and the node. Where every offer of a run
meets the conditions they make no difference (`passes_guarded`). In this way what is proved of rules
that never fail is proved of rules that do not fail where they are offered nodes (`passes_go_guarded`).
-/

namespace Codemod

open Step

-- The rule where a condition holds; elsewhere it does not apply.
def Rule.guarded (rule : Rule) (holds : Tree → NodeId → Prop)
    [∀ tree node, Decidable (holds tree node)] : Rule :=
  { rule with
    accepts := fun tree node context =>
      if holds tree node then rule.accepts tree node context else .ok false
    apply := fun node context => do
      if holds (← get) node then rule.apply node context else return .unchanged }

namespace Pass

section

variable {rule : Rule} {holds : Tree → NodeId → Prop} [∀ tree node, Decidable (holds tree node)]
variable (context : Context) (link : Option Link) (anchor : Option Span) {node : NodeId} {tree : Tree}

theorem attempt_guarded (held : holds tree node) :
    (attempt (rule.guarded holds) node context).run tree = (attempt rule node context).run tree := by
  have accepts : (rule.guarded holds).accepts tree node context = rule.accepts tree node context :=
    if_pos held
  have applies : ((rule.guarded holds).apply node context).run tree
      = (rule.apply node context).run tree := by
    unfold Rule.guarded
    dsimp only
    rw [run_bind_ok (RuleStep.run_get tree), if_pos held]
  rw [run_attempt, run_attempt, accepts, applies]

theorem offer_guarded_first {rest : List Rule}
    (held : (tree.kind? node).any rule.kinds.contains → holds tree.checkpoint node)
    (verdict : Verdict) (log : Log) :
    offer context link anchor (rule.guarded holds :: rest) node verdict tree log
      = offer context link anchor (rule :: rest) node verdict tree log := by
  have kinds : (rule.guarded holds).kinds = rule.kinds := rfl
  unfold offer
  rw [kinds]
  by_cases offered : (tree.kind? node).any rule.kinds.contains
  · have applied : applyRule (rule.guarded holds) context node link anchor tree log
        = applyRule rule context node link anchor tree log := by
      unfold applyRule
      rw [attempt_guarded context (held offered)]
      rfl
    rw [if_pos offered, if_pos offered, applied]
  · rw [if_neg offered, if_neg offered]

end

section

variable {holds : Rule → Tree → NodeId → Prop} [∀ rule tree node, Decidable (holds rule tree node)]
variable (context : Context)

def Unmet (holds : Rule → Tree → NodeId → Prop) (rules : List Rule) (made : Offer) : Prop :=
  ∃ rule ∈ rules, rule.id = made.ruleId ∧ ¬ holds rule made.tree.checkpoint made.node

theorem offer_guarded (link : Option Link) (anchor : Option Span) {rules : List Rule}
    {tree other : Tree} (trees : tree.commit = other.commit) (log : Log) (current : NodeId)
    (verdict : Verdict)
    (met : ∀ made ∈ offers context link anchor rules current tree, ¬ Unmet holds rules made) :
    Agree Eq (offer context link anchor rules current verdict tree log)
      (offer context link anchor (rules.map fun rule => rule.guarded (holds rule)) current verdict
        other log) := by
  have stable : ∀ rule, Stable Eq context rule := by
    intro rule _ _ _ _ _ _ same
    rw [same]
  induction rules generalizing current verdict tree other log with
  | nil => exact ⟨rfl, trees, rfl⟩
  | cons rule rest ih =>
      have later : ∀ {made}, ¬ Unmet holds (rule :: rest) made → ¬ Unmet holds rest made := by
        rintro made met ⟨other, member, unmet⟩
        exact met ⟨other, List.mem_cons_of_mem _ member, unmet⟩
      have held : (other.kind? current).any rule.kinds.contains →
          holds rule other.checkpoint current := by
        intro offered
        rw [← kind?_of_commit trees] at offered
        have first := met _ (offers_first context link anchor offered)
        refine Classical.byContradiction fun unmet => first ⟨rule, List.mem_cons_self, rfl, ?_⟩
        have same : tree.commit.checkpoint = other.checkpoint := by
          rw [trees]
          rfl
        rwa [same]
      rw [List.map_cons, offer_guarded_first context link anchor held]
      have first := applyRule_agree context link anchor current (stable rule) trees (rfl : log = log)
      apply offer_cons_agree context link anchor trees first
      · intro skipped verdict
        apply ih trees log current verdict
        rw [offers_skip context link anchor skipped] at met
        exact fun made member => later (met made member)
      · intro offered left right next verdict handed
        have same : left.2.2 = right.2.2 := first.log
        rw [← same]
        apply ih first.tree left.2.2 next verdict
        exact fun made member => later (met made (offers_rest context link anchor offered handed member))

theorem tracer_guarded (rules : List Rule) (node : NodeId) :
    Walk.Paired (Walk.Alike fun both log => both.1 = log)
      (fun both => ∃ made ∈ both.2, Unmet holds rules made) (tracer rules context node)
      (visitor (rules.map fun rule => rule.guarded (holds rule)) context node) where
  lasting walk unmet := by
    obtain ⟨made, member, fails⟩ := unmet
    exact ⟨made, List.mem_append_left _ member, fails⟩
  alike {walk other} alike := by
    by_cases fails : ∃ made ∈ offersAt rules context node walk.tree, Unmet holds rules made
    · obtain ⟨made, member, unmet⟩ := fails
      exact Or.inl ⟨made, List.mem_append_right _ member, unmet⟩
    · have logs : walk.state.1 = other.state := alike.state
      have agree : Agree Eq (answerAt rules context node walk.tree walk.state.1)
          (answerAt (rules.map fun rule => rule.guarded (holds rule)) context node other.tree
            other.state) := by
        unfold answerAt
        rw [← logs, ← parent?_of_commit alike.tree, ← anchor?_of_commit alike.tree]
        exact offer_guarded context _ _ alike.tree _ node .unchanged fun made member unmet =>
          fails ⟨made, member, unmet⟩
      exact Or.inr ⟨congrArg Except.ok agree.verdict,
        { alike with tree := agree.tree, state := agree.log }⟩

end

end Pass

namespace Run

theorem Fit.of_commit {tree other : Tree} (fit : Fit tree) (same : other.commit = tree.commit) :
    Fit other where
  proper := fit.proper.of_commit same
  tidy := by
    rw [Tree.root_of_commit same]
    exact fit.tidy.of_nodes (Tree.nodes_of_commit same)
  rooted := by
    rw [Pass.kind?_of_commit same, Tree.root_of_commit same]
    exact fit.rooted

section

variable {holds : Rule → Tree → NodeId → Prop} [∀ rule tree node, Decidable (holds rule tree node)]
variable (context : Context) {rules : List Rule} (steps left : Nat) {tree : Tree}

theorem passes_guarded (outcome : RunOutcome)
    (met : ∀ made ∈ offers rules steps context left tree, ¬ Pass.Unmet holds rules made) :
    let full := passes rules steps context left outcome tree
    let rest := passes (rules.map fun rule => rule.guarded (holds rule)) steps context left outcome tree
    full.1 = rest.1 ∧ full.2.commit = rest.2.commit := by
  have alike := passes_traced (fun log => log) (Pass.tracer_guarded context rules)
    (fun _ _ _ => rfl) left rfl (rfl : tree.commit = tree.commit) (rfl : outcome = outcome) met
  intro full rest
  obtain ⟨outcomes, trees⟩ := alike
  refine ⟨?_, trees⟩
  rw [← outcomes]
  cases (passes rules steps context left outcome tree).1 <;> rfl

/-- Passes of rules that are safe where their conditions hold, if these hold at every offer. -/
theorem passes_go_guarded (safe : ∀ rule ∈ rules, (rule.guarded (holds rule)).Safe)
    {outcome : RunOutcome} (fit : Fit tree) (clean : outcome.log.Clean)
    (met : ∀ made ∈ offers rules steps context left tree, ¬ Pass.Unmet holds rules made) :
    Fit (passes rules steps context left outcome tree).2
      ∧ (∀ stop, (passes rules steps context left outcome tree).1 = .error stop → stop = .exhausted)
      ∧ ∀ ended, (passes rules steps context left outcome tree).1 = .ok ended → ended.log.Clean := by
  have guarded : ∀ other ∈ rules.map fun rule => rule.guarded (holds rule), other.Safe := by
    intro other member
    obtain ⟨rule, among, rfl⟩ := List.mem_map.mp member
    exact safe rule among
  obtain ⟨outcomes, trees⟩ := passes_guarded context steps left outcome met
  obtain ⟨kept, stops, cleans⟩ := passes_go context guarded steps left fit clean
  rw [outcomes]
  exact ⟨kept.of_commit trees, stops, cleans⟩

/-- A run ends as its passes do, with a warning where they were used up. -/
theorem run_goes {maxPasses : Nat}
    (goes : Fit (passes rules steps context (max maxPasses 1) {} tree).2
      ∧ (∀ stop, (passes rules steps context (max maxPasses 1) {} tree).1 = .error stop →
        stop = .exhausted)
      ∧ ∀ ended, (passes rules steps context (max maxPasses 1) {} tree).1 = .ok ended →
        ended.log.Clean) :
    (∀ outcome after, run rules ⟨maxPasses, steps⟩ context tree = (.ok outcome, after) →
        Fit after ∧ outcome.log.Clean)
      ∧ ∀ stop after, run rules ⟨maxPasses, steps⟩ context tree = (.error stop, after) →
        stop = .exhausted := by
  rw [run_eq]
  dsimp only
  generalize passes rules steps context (max maxPasses 1) {} tree = result at goes
  obtain ⟨fit, stops, cleans⟩ := goes
  rcases result with ⟨stop | ended, finished⟩
  · refine ⟨by rintro _ _ ⟨⟩, ?_⟩
    rintro _ _ ⟨⟩
    exact stops stop rfl
  · refine ⟨?_, by rintro _ _ ⟨⟩⟩
    rintro _ _ ⟨⟩
    exact ⟨fit, RunOutcome.clean_concluded (cleans ended rfl)⟩

end

end Run

end Codemod
