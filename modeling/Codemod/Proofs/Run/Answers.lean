import Codemod.Proofs.Edit.Placement
import Codemod.Proofs.Run.Isolation
import Codemod.Proofs.Run.Unedited

/-!
What rules say of one node, and what is put on record of it. A rule goes on record where it counted a
revision or answered anything but that its node is unchanged. An answer that the slot can take says so
to the walk too, unless the node is to be replaced by itself: then the walk is told nothing.
-/

namespace Codemod

open Step

theorem Tree.Quiet.contains {before after : Tree} (quiet : before.Quiet after) {id : NodeId}
    (inside : before.contains id) : after.contains id := by
  obtain ⟨node, found⟩ := node?_of_contains inside
  obtain ⟨other, held, _⟩ := Option.map_eq_some_iff.mp (quiet.bare id node found)
  exact contains_of_node? held

namespace Pass

def Fits (link : Option Link) (tree : Tree) : Verdict → Prop
  | .unchanged => True
  | .replaced new => tree.contains new
  | .deleted => ∃ place, link = some place ∧ place.slot.arity ≠ .required
  | .inserted nodes => (∃ place, link = some place ∧ place.slot.arity = .list)
      ∧ ∀ node ∈ nodes, tree.contains node

theorem fits_of_check {link : Option Link} {tree : Tree} {verdict : Verdict} {node : NodeId}
    (checked : check tree verdict node link = .ok ()) : Fits link tree verdict := by
  unfold check at checked
  cases verdict with
  | unchanged => trivial
  | replaced new =>
      dsimp only at checked
      split at checked
      · next inside => exact inside
      · cases checked
  | deleted =>
      dsimp only at checked
      split at checked
      · next free =>
          cases link with
          | none => simp at free
          | some place =>
              refine ⟨place, rfl, ?_⟩
              intro required
              simp [required] at free
      · cases checked
  | inserted nodes =>
      dsimp only at checked
      split at checked
      · cases checked
      · next list =>
          split at checked
          · next inside =>
              cases link with
              | none => simp at list
              | some place =>
                  exact ⟨⟨place, rfl, by simpa using list⟩, by simpa using inside⟩
          · cases checked

theorem Fits.quiet {link : Option Link} {tree after : Tree} {verdict : Verdict}
    (fits : Fits link tree verdict) (quiet : tree.Quiet after) : Fits link after verdict := by
  cases verdict with
  | unchanged => trivial
  | replaced new => exact quiet.contains fits
  | deleted => exact fits
  | inserted nodes => exact ⟨fits.1, fun node member => quiet.contains (fits.2 node member)⟩

variable {rules : List Rule} {rule : Rule} (context : Context) {link : Option Link}
variable {anchor : Option Span} {tree : Tree} {log : Log}

/-- A rule goes on record if it counted a revision or said more than that its node is unchanged. -/
structure Recorded (link : Option Link) (tree : Tree) (log : Log) (answer : Verdict × Tree × Log) :
    Prop where
  fits : Fits link answer.2.1 answer.1
  grows : ∃ made, answer.2.2.applications = log.applications ++ made
    ∧ (made = [] ↔ answer.2.1.revision = tree.revision ∧ answer.1 = .unchanged)

theorem recorded_report (link : Option Link) (tree : Tree) (log : Log) (diagnostic : Diagnostic)
    {after : Tree} (same : after.revision = tree.revision) :
    Recorded link tree log (.unchanged, after, log.report diagnostic) :=
  ⟨trivial, [], (List.append_nil _).symm, by simp [same]⟩

theorem applyRule_recorded (edits : rule.Edits) (node : NodeId) (link : Option Link)
    (anchor : Option Span) (tree : Tree) (log : Log) :
    Recorded link tree log (applyRule rule context node link anchor tree log) := by
  have undone : ∀ operations, (tree.checkpoint.edited operations).rollback.revision
      = tree.revision := by
    intro operations
    rw [Tree.rollback_edited]
    rfl
  obtain ⟨operations, edited, _⟩ := attempt_edits context node edits tree.checkpoint
  unfold applyRule
  generalize ran : (attempt rule node context).run tree.checkpoint = result at edited
  rcases result with ⟨failure | _ | verdict, after⟩
  · have made : after = tree.checkpoint.edited operations := edited
    subst made
    exact recorded_report link tree log _ (undone operations)
  · cases attempt_declined rule context node ran
    exact ⟨trivial, [], (List.append_nil _).symm, by simp [Tree.commit, Tree.checkpoint]⟩
  · have made : after = tree.checkpoint.edited operations := edited
    subst made
    dsimp only
    cases checked : check (tree.checkpoint.edited operations) verdict node link with
    | error error => exact recorded_report link tree log _ (undone operations)
    | ok done =>
        refine ⟨fits_of_check checked, ?_⟩
        dsimp only
        split
        · next counts => exact ⟨[_], rfl, by
            simpa [Tree.commit] using fun same => counts.resolve_left (· same)⟩
        · next silent => exact ⟨[], (List.append_nil _).symm, by simpa [Tree.commit] using silent⟩

def replacements (context : Context) (link : Option Link) (anchor : Option Span) :
    List Rule → NodeId → Tree → List NodeId
  | [], _, _ => []
  | rule :: rest, current, tree =>
      if (tree.kind? current).any rule.kinds.contains then
        match applyRule rule context current link anchor tree {} with
        | (.unchanged, tree, _) => replacements context link anchor rest current tree
        | (.replaced new, tree, _) => new :: replacements context link anchor rest new tree
        | _ => []
      else replacements context link anchor rest current tree

def replacementsAt (rules : List Rule) (context : Context) (node : NodeId) (tree : Tree) :
    List NodeId :=
  replacements context (tree.parent? node) (tree.anchor? node) rules node tree

/-- At the node, with the tree as it was then, a rule put the node in its own place. -/
def Returned (rules : List Rule) (context : Context) (call : NodeId × Tree) : Prop :=
  call.1 ∈ replacementsAt rules context call.1 call.2

instance (rules : List Rule) (context : Context) (call : NodeId × Tree) :
    Decidable (Returned rules context call) :=
  inferInstanceAs (Decidable (call.1 ∈ replacementsAt rules context call.1 call.2))

def replacementsAfter (context : Context) (link : Option Link) (anchor : Option Span)
    (rest : List Rule) (current : NodeId) : Verdict × Tree × Log → List NodeId
  | (.unchanged, tree, _) => replacements context link anchor rest current tree
  | (.replaced new, tree, _) => new :: replacements context link anchor rest new tree
  | _ => []

theorem replacements_asked {rest : List Rule} {current : NodeId}
    (asked : (tree.kind? current).any rule.kinds.contains) (log : Log) :
    replacements context link anchor (rule :: rest) current tree
      = replacementsAfter context link anchor rest current
        (applyRule rule context current link anchor tree log) := by
  obtain ⟨verdicts, trees⟩ := applyRule_log rule context current link anchor tree {} log
  rw [replacements, if_pos asked]
  generalize applyRule rule context current link anchor tree {} = bare at verdicts trees
  generalize applyRule rule context current link anchor tree log = answer at verdicts trees
  obtain ⟨verdict, after, entries⟩ := bare
  obtain ⟨other, otherAfter, otherEntries⟩ := answer
  cases verdicts
  cases trees
  cases verdict <;> rfl

variable (edits : ∀ rule ∈ rules, rule.Edits)

include edits

theorem offer_grows (link : Option Link) (anchor : Option Span) (current : NodeId)
    (verdict : Verdict) (tree : Tree) (log : Log) :
    tree.revision ≤ (offer context link anchor rules current verdict tree log).2.1.revision :=
  (offer_along Tree.steady_ordered context link anchor (fun rule member node tree log =>
    applyRule_steady context node (edits rule member) link anchor tree log)
    current verdict tree log).grows

theorem offer_between {before : Tree} (grows : before.revision ≤ tree.revision) {current : NodeId}
    {verdict : Verdict}
    (same : (offer context link anchor rules current verdict tree log).2.1.revision = before.revision) :
    tree.revision = before.revision := by
  have further := offer_grows context edits link anchor current verdict tree log
  omega

/-- Where nothing was put on record nothing was done and nothing was answered. -/
theorem offer_silent (link : Option Link) (anchor : Option Span) (current : NodeId)
    (verdict : Verdict) (tree : Tree) (log : Log) :
    let answer := offer context link anchor rules current verdict tree log
    ∃ made, answer.2.2.applications = log.applications ++ made
      ∧ (made = [] → answer.2.1.revision = tree.revision ∧ answer.1 = verdict
        ∧ replacements context link anchor rules current tree = []) := by
  induction rules generalizing current verdict tree log with
  | nil => exact ⟨[], (List.append_nil _).symm, fun _ => ⟨rfl, rfl, rfl⟩⟩
  | cons rule rest ih =>
      obtain ⟨editsHere, editsLater⟩ := List.forall_mem_cons.mp edits
      by_cases asked : (tree.kind? current).any rule.kinds.contains
      · obtain ⟨_, first, grown, told⟩ :=
          applyRule_recorded context editsHere current link anchor tree log
        rw [offer, if_pos asked, replacements_asked context asked log]
        generalize applyRule rule context current link anchor tree log = answer at grown told ⊢
        obtain ⟨given, after, entries⟩ := answer
        -- A verdict other than unchanged is on record, so that silence is out of the question.
        have spoken : given ≠ .unchanged → ∀ later, first ++ later ≠ [] := by
          intro differs later none
          exact differs (told.mp (List.append_eq_nil_iff.mp none).1).2
        cases given with
        | unchanged =>
            obtain ⟨later, further, silent⟩ := ih editsLater current verdict after entries
            refine ⟨first ++ later, ?_, ?_⟩
            · rw [further, grown, List.append_assoc]
            · intro none
              obtain ⟨here, there⟩ := List.append_eq_nil_iff.mp none
              obtain ⟨same, stays, none⟩ := silent there
              exact ⟨same.trans (told.mp here).1, stays, none⟩
        | replaced new =>
            dsimp only
            split
            · obtain ⟨later, further, _⟩ := ih editsLater current verdict after entries
              exact ⟨first ++ later, by rw [further, grown, List.append_assoc],
                fun none => absurd none (spoken Verdict.noConfusion later)⟩
            · obtain ⟨later, further, _⟩ := ih editsLater new (.replaced new) after entries
              exact ⟨first ++ later, by rw [further, grown, List.append_assoc],
                fun none => absurd none (spoken Verdict.noConfusion later)⟩
        | deleted | inserted =>
            refine ⟨first, grown, fun none => ?_⟩
            cases (told.mp none).2
      · rw [offer, if_neg asked, replacements, if_neg asked]
        exact ih editsLater current verdict tree log

/-- Where the revision stays, what the walk is told fits its slot. -/
theorem offer_fits (current : NodeId) {verdict : Verdict} (fits : Fits link tree verdict) :
    let answer := offer context link anchor rules current verdict tree log
    answer.2.1.revision = tree.revision → Fits link answer.2.1 answer.1 := by
  induction rules generalizing current verdict tree log with
  | nil => exact fun _ => fits
  | cons rule rest ih =>
      obtain ⟨editsHere, editsLater⟩ := List.forall_mem_cons.mp edits
      by_cases asked : (tree.kind? current).any rule.kinds.contains
      · have steady := applyRule_steady context current editsHere link anchor tree log
        have fitting := (applyRule_recorded context editsHere current link anchor tree log).fits
        rw [offer, if_pos asked]
        generalize applyRule rule context current link anchor tree log = answer
          at steady fitting ⊢
        obtain ⟨given, after, entries⟩ := answer
        have kept : after.revision = tree.revision → Fits link after verdict :=
          fun same => fits.quiet (steady.quiet same)
        cases given with
        | unchanged =>
            intro _ same
            have stays := offer_between context editsLater steady.grows same
            exact ih editsLater current (kept stays) (same.trans stays.symm)
        | replaced new =>
            dsimp only
            split
            · intro same
              have stays := offer_between context editsLater steady.grows same
              exact ih editsLater current (kept stays) (same.trans stays.symm)
            · intro same
              have stays := offer_between context editsLater steady.grows same
              exact ih editsLater new fitting (same.trans stays.symm)
        | deleted | inserted => exact fun _ => fitting
      · rw [offer, if_neg asked]
        exact ih editsLater current fits

/-- Where the revision stays and no rule put the visited node in its own place, the walk is not told
to do so either, and is told that the node is unchanged only if nothing was put on record. -/
theorem offer_unreturned {visited current : NodeId} {verdict : Verdict}
    (stands : verdict = .unchanged ∧ current = visited
      ∨ verdict = .replaced current ∧ current ≠ visited) :
    let answer := offer context link anchor rules current verdict tree log
    answer.2.1.revision = tree.revision →
      visited ∉ replacements context link anchor rules current tree →
        answer.1 ≠ .replaced visited
          ∧ (answer.1 = .unchanged → verdict = .unchanged
            ∧ answer.2.2.applications = log.applications) := by
  induction rules generalizing current verdict tree log with
  | nil =>
      intro answer _ _
      rcases stands with ⟨rfl, _⟩ | ⟨rfl, apart⟩
      · exact ⟨Verdict.noConfusion, fun _ => ⟨rfl, rfl⟩⟩
      · exact ⟨fun same => apart (Verdict.replaced.inj same), Verdict.noConfusion⟩
  | cons rule rest ih =>
      obtain ⟨editsHere, editsLater⟩ := List.forall_mem_cons.mp edits
      by_cases asked : (tree.kind? current).any rule.kinds.contains
      · have steady := applyRule_steady context current editsHere link anchor tree log
        obtain ⟨_, first, grown, told⟩ :=
          applyRule_recorded context editsHere current link anchor tree log
        rw [offer, if_pos asked, replacements_asked context asked log]
        generalize applyRule rule context current link anchor tree log = answer
          at steady grown told ⊢
        obtain ⟨given, after, entries⟩ := answer
        cases given with
        | unchanged =>
            intro _ same apart
            have stays := offer_between context editsLater steady.grows same
            obtain ⟨differs, silent⟩ := ih editsLater stands (same.trans stays.symm) apart
            refine ⟨differs, fun unchanged => ?_⟩
            obtain ⟨still, none⟩ := silent unchanged
            have nothing : first = [] := told.mpr ⟨stays, rfl⟩
            exact ⟨still, by rw [none, grown, nothing, List.append_nil]⟩
        | replaced new =>
            have apartOf : visited ∉ new :: replacements context link anchor rest new after →
                new ≠ visited ∧ visited ∉ replacements context link anchor rest new after :=
              fun apart => ⟨fun same => apart (same ▸ List.mem_cons_self),
                fun member => apart (List.mem_cons_of_mem _ member)⟩
            dsimp only [replacementsAfter]
            split
            · next again =>
                -- Put in its own place is only a node that has replaced the visited one before.
                intro same apart
                obtain ⟨differs, apart⟩ := apartOf apart
                have stays := offer_between context editsLater steady.grows same
                rw [again] at differs apart
                rcases stands with ⟨_, rfl⟩ | ⟨rfl, moved⟩
                · exact absurd rfl differs
                · obtain ⟨other, silent⟩ :=
                    ih editsLater (Or.inr ⟨rfl, moved⟩) (same.trans stays.symm) apart
                  exact ⟨other, fun unchanged => Verdict.noConfusion (silent unchanged).1⟩
            · intro same apart
              obtain ⟨differs, apart⟩ := apartOf apart
              have stays := offer_between context editsLater steady.grows same
              obtain ⟨other, silent⟩ :=
                ih editsLater (Or.inr ⟨rfl, differs⟩) (same.trans stays.symm) apart
              exact ⟨other, fun unchanged => Verdict.noConfusion (silent unchanged).1⟩
        | deleted | inserted => exact fun _ _ => ⟨Verdict.noConfusion, Verdict.noConfusion⟩
      · rw [offer, if_neg asked, replacements, if_neg asked]
        exact ih editsLater stands

structure Answered (rules : List Rule) (context : Context) (node : NodeId) (tree : Tree) (log : Log)
    (answer : Verdict × Tree × Log) (made : List Application) : Prop where
  steady : tree.Steady answer.2.1
  entries : answer.2.2.applications = log.applications ++ made
  silent : made = [] → answer.2.1.revision = tree.revision ∧ answer.1 = .unchanged
    ∧ ¬ Returned rules context (node, tree)
  fits : answer.2.1.revision = tree.revision → Fits (tree.parent? node) answer.2.1 answer.1
  idle : answer.2.1.revision = tree.revision → ¬ Returned rules context (node, tree) →
    answer.1 ≠ .replaced node ∧ (answer.1 = .unchanged → made = [])

theorem answerAt_answered (node : NodeId) (tree : Tree) (log : Log) :
    ∃ made, Answered rules context node tree log (answerAt rules context node tree log) made := by
  obtain ⟨made, entries, silent⟩ := offer_silent context edits (tree.parent? node)
    (tree.anchor? node) node .unchanged tree log
  refine ⟨made, ?_, entries, ?_, ?_, ?_⟩
  · exact offer_along Tree.steady_ordered context _ _ (fun rule member node tree log =>
      applyRule_steady context node (edits rule member) _ _ tree log) node .unchanged tree log
  · intro none
    obtain ⟨same, unchanged, nothing⟩ := silent none
    refine ⟨same, unchanged, fun returned => ?_⟩
    have placed : node ∈ replacementsAt rules context node tree := returned
    rw [replacementsAt, nothing] at placed
    cases placed
  · exact offer_fits context edits node trivial
  · intro same apart
    obtain ⟨differs, still⟩ := offer_unreturned context edits (Or.inl ⟨rfl, rfl⟩) same apart
    refine ⟨differs, fun unchanged => ?_⟩
    have nothing := (still unchanged).2
    rw [entries] at nothing
    exact List.append_right_eq_self.mp nothing

end Pass

end Codemod
