import Codemod.Proofs.Catalog.Chains
import Codemod.Proofs.Catalog.Trimming
import Codemod.Proofs.Run.Sweep

/-!
Runs that name calls after an argument. The first pass decides on the arguments of the source. A later
one decides again where the new name is still the one that is looked for: on the same argument if it
was kept, and otherwise for the default. Main statement: this tells the name and the arguments of every
call after a run that converged (`run_naming`).
-/

namespace Codemod

open Step

namespace RenameMethodByArgument

variable {config : RenameMethodByArgument} {tree after : Tree} {call : NodeId} {title name : String}

def kept (config : RenameMethodByArgument) (arguments : List NodeId) : List NodeId :=
  match config.keep with
  | some keep => arguments.take keep
  | none => arguments

def lost (config : RenameMethodByArgument) (arguments : List NodeId) : List NodeId :=
  match config.keep with
  | some keep => arguments.drop keep
  | none => []

def forgets (config : RenameMethodByArgument) : Bool :=
  config.keep.any fun keep => keep ≤ config.position

theorem kept_of_lost {arguments : List NodeId} (none : config.lost arguments = []) :
    config.kept arguments = arguments := by
  unfold kept
  unfold lost at none
  cases given : config.keep with
  | none => rfl
  | some keep =>
      rw [given] at none
      exact List.take_of_length_le (List.drop_eq_nil_iff.mp none)

theorem lost_of_kept {arguments : List NodeId} (all : config.kept arguments = arguments) :
    config.lost arguments = [] := by
  unfold lost
  unfold kept at all
  cases given : config.keep with
  | none => rfl
  | some keep =>
      rw [given] at all
      have short := congrArg List.length all
      rw [List.length_take] at short
      exact List.drop_eq_nil_iff.mpr (by omega)

theorem lost_kept (arguments : List NodeId) : config.lost (config.kept arguments) = [] := by
  unfold lost kept
  cases config.keep with
  | none => rfl
  | some keep => simp

theorem filter_lost {arguments : List NodeId} (nodup : arguments.Nodup) :
    arguments.filter (fun other => other ∉ config.lost arguments) = config.kept arguments := by
  unfold lost kept
  cases config.keep with
  | none => simp
  | some keep =>
      have whole : arguments.take keep ++ arguments.drop keep = arguments := List.take_append_drop _ _
      have apart := nodup
      rw [← whole] at apart
      obtain ⟨_, _, differ⟩ := List.nodup_append.mp apart
      calc arguments.filter (fun other => other ∉ arguments.drop keep)
          = (arguments.take keep ++ arguments.drop keep).filter
              (fun other => other ∉ arguments.drop keep) := by rw [whole]
        _ = arguments.take keep ++ [] := by
          rw [List.filter_append, List.filter_eq_self.mpr, List.filter_eq_nil_iff.mpr]
          · simp
          · intro other member
            exact decide_eq_true fun late => differ other member other late rfl
        _ = arguments.take keep := List.append_nil _

theorem getElem?_kept (forgets : config.forgets = true) (arguments : List NodeId) :
    (config.kept arguments)[config.position]? = none := by
  unfold RenameMethodByArgument.forgets at forgets
  unfold kept
  cases given : config.keep with
  | none => simp [given] at forgets
  | some keep =>
      have short : keep ≤ config.position := by simpa [given] using forgets
      exact List.getElem?_eq_none (by simp; omega)

theorem getElem?_kept_of_lt (keeps : config.forgets = false) (arguments : List NodeId) :
    (config.kept arguments)[config.position]? = arguments[config.position]? := by
  unfold forgets at keeps
  unfold kept
  cases given : config.keep with
  | none => rfl
  | some keep =>
      have long : config.position < keep := by simpa [given] using keeps
      rw [List.getElem?_take, if_pos long]

theorem newName_of_same (trimmed : tree.Trimmed after)
    (same : (after.arguments call)[config.position]? = (tree.arguments call)[config.position]?) :
    config.newName after call = config.newName tree call := by
  have values : after.positionalValue? call config.position
      = tree.positionalValue? call config.position := by
    rw [Tree.positionalValue?_eq, same, Tree.positionalValue?_eq]
    congr 1
    funext argument
    exact trimmed.plainValue? argument
  unfold newName byValue
  rw [values]
  simp only [trimmed.stringValue, trimmed.trimmedText?]

/-- Without an argument at the position the default decides. -/
theorem newName_of_none (none : (tree.arguments call)[config.position]? = none) :
    config.newName tree call = .ok config.default := by
  have value : tree.positionalValue? call config.position = Option.none := by
    rw [Tree.positionalValue?_eq, none]
    rfl
  unfold newName
  rw [value]
  rfl

theorem planFor_eq (named : tree.callName? call = some name) (title : String) :
    config.planFor tree call title =
      if name = title ∧ config.lost (tree.arguments call) = [] then none
      else some ⟨if name = title then none else some title, config.lost (tree.arguments call)⟩ := by
  unfold planFor lost
  rw [named]
  dsimp only
  by_cases same : name = title
  · rw [if_pos same]
    cases config.keep with
    | none => simp [same]
    | some keep =>
        dsimp only
        by_cases empty : (tree.arguments call).drop keep = []
        · simp [same, empty]
        · simp [empty]
  · cases config.keep <;> simp [same]

theorem plan_eq (chosen : config.newName tree call = .ok (some title)) :
    config.plan tree call =
      .ok (if (CallTarget.method config.method).accepts tree call then config.planFor tree call title
        else none) := by
  unfold plan
  by_cases accepted : (CallTarget.method config.method).accepts tree call
  · rw [if_pos accepted, if_pos accepted, chosen]
    rfl
  · rw [if_neg accepted, if_neg accepted]
    rfl

theorem named_of_accepts {target : CallTarget} (accepted : target.accepts tree call) :
    ∃ name, tree.callName? call = some name := by
  unfold CallTarget.accepts at accepted
  split at accepted
  · next spelled _ named => exact ⟨_, named⟩
  · cases accepted

/-- A call on an object or a class is one that the rule is after if its name is. -/
theorem accepts_of_named
    (kind : tree.kind? call = some .methodCall ∨ tree.kind? call = some .staticCall)
    (named : tree.callName? call = some name) :
    (CallTarget.method config.method).accepts tree call = Name.same name config.method := by
  unfold CallTarget.accepts
  rcases kind with kind | kind <;> rw [kind, named] <;> rfl

/-- A call that is left alone has the name that it would be given, and nothing to lose. -/
theorem idle_spec (idle : config.plan tree call = .ok none)
    (accepts : (CallTarget.method config.method).accepts tree call)
    (chosen : config.newName tree call = .ok (some title)) (named : tree.callName? call = some name) :
    name = title ∧ config.lost (tree.arguments call) = [] := by
  rw [plan_eq chosen, if_pos accepts, planFor_eq named] at idle
  exact Classical.byContradiction fun differs => by
    rw [if_neg differs] at idle
    cases idle

/-- The name that a call ends with that was given a title. If the argument that decides was dropped
and the title is still one that the rule is after, the default decides the next time. -/
def settledName (config : RenameMethodByArgument) (title : String) : String :=
  if config.forgets && Name.same title config.method then config.default.getD title else title

/-- A call as it is in the source, or as it is once its name was decided. -/
inductive Decided (config : RenameMethodByArgument) (tree after : Tree) (call : NodeId) : Prop where
  | undecided (named : after.callName? call = tree.callName? call)
      (listed : after.arguments call = tree.arguments call)
  | decided {title name : String} (accepted : (CallTarget.method config.method).accepts tree call)
      (chosen : config.newName tree call = .ok (some title))
      (named : after.callName? call = some name) (told : name = title ∨ name = config.settledName title)
      (listed : after.arguments call = config.kept (tree.arguments call))

namespace Decided

variable {edited : Tree} (trimmed : tree.Trimmed after)
include trimmed

theorem accepts_undecided (named : after.callName? call = tree.callName? call) :
    (CallTarget.method config.method).accepts after call
      = (CallTarget.method config.method).accepts tree call := by
  rw [CallTarget.accepts, trimmed.kinds, named, CallTarget.accepts]

theorem accepts_decided (accepted : (CallTarget.method config.method).accepts tree call)
    (named : after.callName? call = some name) :
    (CallTarget.method config.method).accepts after call = Name.same name config.method := by
  apply accepts_of_named _ named
  rw [trimmed.kinds]
  exact (Tree.name_of_accepts accepted).1

/-- A call whose name was decided takes on at most one other name, that of the default. -/
theorem again (chosen : config.newName tree call = .ok (some title))
    (accepted : (CallTarget.method config.method).accepts tree call)
    (named : after.callName? call = some name) (told : name = title ∨ name = config.settledName title)
    (listed : after.arguments call = config.kept (tree.arguments call)) {next : String}
    (accepts : (CallTarget.method config.method).accepts after call)
    (follows : config.newName after call = .ok (some next)) :
    next = name ∨ next = config.settledName title := by
  rw [accepts_decided trimmed accepted named] at accepts
  cases forgets : config.forgets with
  | false =>
      -- The same argument decides again, and in the same way.
      have same := newName_of_same trimmed
        ((congrArg (·[config.position]?) listed).trans (getElem?_kept_of_lt forgets _))
      rw [follows, chosen] at same
      cases same
      rcases told with rfl | settled
      · exact Or.inl rfl
      · exact Or.inr (by simp [settledName, forgets])
  | true =>
      -- It is gone, and the default decides.
      have gone := (congrArg (·[config.position]?) listed).trans (getElem?_kept forgets _)
      rw [newName_of_none gone] at follows
      have default : config.default = some next := Except.ok.inj follows
      right
      by_cases still : Name.same title config.method = true
      · simp [settledName, forgets, still, default]
      · have settled : config.settledName title = title := by simp [settledName, still]
        rw [settled, or_self] at told
        exact absurd (told ▸ accepts) still

/-- What one application makes of a call. -/
theorem step (decided : config.Decided tree after call)
    (accepts : (CallTarget.method config.method).accepts after call)
    (follows : config.newName after call = .ok (some title))
    (named : edited.callName? call = some title)
    (listed : edited.arguments call = config.kept (after.arguments call)) :
    config.Decided tree edited call := by
  cases decided with
  | undecided same still =>
      rw [accepts_undecided trimmed same] at accepts
      rw [newName_of_same trimmed (congrArg (·[config.position]?) still)] at follows
      exact .decided accepts follows named (Or.inl rfl) (still ▸ listed)
  | @decided first former accepted chosen called told still =>
      have next := again trimmed chosen accepted called told still accepts follows
      have kept : edited.arguments call = config.kept (tree.arguments call) := by
        rw [listed, still, kept_of_lost (lost_kept _)]
      refine .decided accepted chosen named ?_ kept
      rcases next with rfl | settled
      · exact told
      · exact Or.inr settled

/-- Where nothing is left to decide a call has the name it settles on. -/
theorem settled (decided : config.Decided tree after call)
    (accepted : (CallTarget.method config.method).accepts tree call)
    (idle : config.plan after call = .ok none) {chosen : Option String}
    (chooses : config.newName tree call = .ok chosen) :
    after.callName? call = (chosen.map config.settledName).or (tree.callName? call)
      ∧ after.arguments call
        = if chosen.isSome then config.kept (tree.arguments call) else tree.arguments call := by
  cases decided with
  | undecided same still =>
      cases chosen with
      | none => exact ⟨same, still⟩
      | some title =>
          have follows := chooses
          rw [← newName_of_same trimmed (congrArg (·[config.position]?) still)] at follows
          obtain ⟨name, named⟩ := named_of_accepts accepted
          have accepts := (accepts_undecided trimmed same).trans accepted
          obtain ⟨rfl, none⟩ := idle_spec idle accepts follows (same.trans named)
          -- The call has the name already and nothing to lose, so there is no argument to forget.
          rw [still] at none
          have kept := kept_of_lost none
          refine ⟨(same.trans named).trans (congrArg some ?_), still.trans kept.symm⟩
          unfold settledName
          cases forgets : config.forgets with
          | false => rfl
          | true =>
              have gone := getElem?_kept forgets (tree.arguments call)
              rw [kept] at gone
              have default := Except.ok.inj ((newName_of_none gone).symm.trans chooses)
              simp [default]
  | @decided title name _ chose named told still =>
      cases chose.symm.trans chooses
      refine ⟨named.trans (congrArg some ?_), still⟩
      rcases told with rfl | settled
      · cases forgets : config.forgets with
        | false => simp [settledName, forgets]
        | true =>
            by_cases same : Name.same name config.method = true
            · have gone := (congrArg (·[config.position]?) still).trans (getElem?_kept forgets _)
              have follows := newName_of_none gone
              cases default : config.default with
              | none => simp [settledName, default]
              | some next =>
                  rw [default] at follows
                  have accepts := (accepts_decided trimmed accepted named).trans same
                  have next := (idle_spec idle accepts follows named).1
                  simp [settledName, default, next]
            · simp [settledName, same]
      · exact settled

end Decided

theorem stays (config : RenameMethodByArgument) : config.rule.Stays := by
  intro tree call context verdict after ran
  have unfolded : (config.rule.apply call context).run tree = (config.apply call).run tree := rfl
  rw [unfolded, apply] at ran
  obtain ⟨found, _, _, rest⟩ := run_bind_eq_ok.mp ran
  rcases found with _ | ⟨rename, dropped⟩
  · cases rest
    rfl
  · obtain ⟨_, _, _, renames⟩ := run_bind_eq_ok.mp rest
    cases rename with
    | none =>
        cases renames
        rfl
    | some name =>
        obtain ⟨_, _, _, answers⟩ := run_bind_eq_ok.mp renames
        cases answers
        rfl

structure Made (config : RenameMethodByArgument) (tree : Tree) (call : NodeId) (title : String)
    (edited : Tree) : Prop where
  accepts : (CallTarget.method config.method).accepts tree call
  chosen : config.newName tree call = .ok (some title)
  differs : ¬ (tree.callName? call = some title ∧ config.lost (tree.arguments call) = [])
  trims : tree.Trims call edited
  named : edited.callName? call = some title
  listed : edited.arguments call = config.kept (tree.arguments call)

theorem isCall_of_accepts (accepts : (CallTarget.method config.method).accepts tree call) :
    tree.IsCall call := by
  rw [Tree.IsCall]
  rcases (Tree.name_of_accepts accepts).1 with kind | kind <;> rw [kind] <;> rfl

theorem made_of_applied {edited : Tree} (fit : Run.Fit tree) (reached : tree.Reaches call)
    {context : Context} (accepted : config.rule.accepts tree.checkpoint call context = .ok true)
    (applied : (config.rule.apply call context).run tree = (.ok .unchanged, edited)) :
    ∃ title, config.Made tree call title edited := by
  obtain ⟨chosen, reads⟩ := newName_ok fit.proper config call
  have answers : (config.plan tree call).map Option.isSome = .ok true := accepted
  by_cases accepts : (CallTarget.method config.method).accepts tree call
  · cases chosen with
    | none =>
        rw [plan, if_pos accepts, reads] at answers
        cases answers
    | some title =>
        have planned := plan_eq reads
        obtain ⟨name, named⟩ := named_of_accepts accepts
        rw [if_pos accepts, planFor_eq named] at planned
        by_cases done : name = title ∧ config.lost (tree.arguments call) = []
        · rw [planned, if_pos done] at answers
          cases answers
        · rw [if_neg done] at planned
          have called := isCall_of_accepts accepts
          have tidy := fit.tidy.sub reached
          have dropped : (config.lost (tree.arguments call)).Sublist (tree.arguments call) := by
            unfold lost
            cases config.keep with
            | none => exact List.nil_sublist _
            | some keep => exact List.drop_sublist keep _
          -- A call that has the right name already is not renamed to it once more.
          have renames : (if name = title then none else some title) ≠ some name := by
            split
            · exact nofun
            · next other => exact fun same => other (Option.some.inj same).symm
          obtain ⟨after, ran, trims, retitled, kept⟩ :=
            config.run_apply tidy called planned dropped named renames
          have same : (config.apply call).run tree = (.ok .unchanged, edited) := applied
          rw [ran] at same
          cases same
          refine ⟨title, accepts, reads, ?_, trims, ?_, ?_⟩
          · rintro ⟨spelled, none⟩
            exact done ⟨Option.some.inj (named.symm.trans spelled), none⟩
          · rw [retitled]
            dsimp only
            split <;> simp_all
          · rw [kept]
            exact filter_lost (called.nodup_arguments tidy)
  · rw [plan, if_neg accepts] at answers
    cases answers

theorem active (config : RenameMethodByArgument) (context : Context) :
    Run.Active config.rule context := by
  intro tree edited call fit reached _ accepted reworked applied same
  obtain ⟨title, made⟩ := made_of_applied fit reached accepted applied
  have still := (reworked.quiet same).1
  apply made.differs
  refine ⟨(Tree.callName?_of_commit still call).symm.trans made.named, lost_of_kept ?_⟩
  exact made.listed.symm.trans (Tree.arguments_of_commit still call)

structure Deciding (config : RenameMethodByArgument) (tree after : Tree) : Prop where
  trimmed : tree.Trimmed after
  calls : ∀ {call}, tree.IsCall call → config.Decided tree after call

theorem Deciding.of_commit (deciding : config.Deciding tree after) {other : Tree}
    (same : other.commit = after.commit) : config.Deciding tree other where
  trimmed := deciding.trimmed.trans (Tree.trimmed_of_commit same)
  calls {call} called := by
    have named := Tree.callName?_of_commit same call
    have listed := Tree.arguments_of_commit same call
    cases deciding.calls called with
    | undecided title still => exact .undecided (named.trans title) (listed.trans still)
    | decided accepted chosen title told still =>
        exact .decided accepted chosen (named.trans title) told (listed.trans still)

/-- One more decision. -/
theorem Deciding.applied (apart : tree.CallsApart) (deciding : config.Deciding tree after)
    {edited : Tree} (made : config.Made after call title edited) : config.Deciding tree edited where
  trimmed := deciding.trimmed.trans made.trims.trimmed
  calls {other} called := by
    have callHere : tree.IsCall call := by
      have there := isCall_of_accepts made.accepts
      rwa [Tree.IsCall, deciding.trimmed.kinds] at there
    by_cases same : other = call
    · subst same
      exact (deciding.calls called).step deciding.trimmed made.accepts made.chosen made.named made.listed
    · have beside := made.trims.others (deciding.trimmed.isCall called) (by
        rw [deciding.trimmed.children_of_call called, deciding.trimmed.children_of_call callHere]
        exact apart called callHere same)
      cases deciding.calls called with
      | undecided named still => exact .undecided (beside.2.trans named) (beside.1.trans still)
      | decided accepted chosen named told still =>
          exact .decided accepted chosen (beside.2.trans named) told (beside.1.trans still)

theorem Deciding.relayed (config : RenameMethodByArgument) (context : Context)
    (apart : tree.CallsApart) :
    Run.Relayed config.rule context fun _ after => config.Deciding tree after where
  of_commit same deciding := deciding.of_commit same
  sweep := by
    intro _ start _ deciding
    refine ⟨fun after _ => config.Deciding tree after, ?_, deciding, fun sweeping _ => sweeping.holds⟩
    constructor
    · exact fun same deciding => deciding.of_commit same
    · exact fun sweeping _ _ _ => sweeping.holds
    · intro after edited marks id sweeping reached _ _ accepted _ applied
      obtain ⟨title, made⟩ := made_of_applied sweeping.fit reached accepted applied
      exact sweeping.holds.applied apart made

end RenameMethodByArgument

namespace Run

/-- Over a run of the rule a program changes in names and in lists of arguments only, and a call that
the rule is not after keeps both. If the run converged, the name of every other call that can still be
reached was decided on the source: without a new name it has its own one and all its arguments, and
with one it has the arguments that are kept. It then has the new name, unless the argument that decides
was dropped, the new name is one that the rule is after, and there is a default: in this case it has
the name of the default. -/
theorem run_naming {source : String} {program : List Php.Statement}
    (inner : ∀ place ∈ Php.statementPlaces program, Text.Laid source place.1 place.2)
    (outer : Text.Laid source ⟨0, source.utf8ByteSize⟩ (program.map Php.Statement.span))
    (config : RenameMethodByArgument) (options : RunOptions) (context : Context)
    {outcome : RunOutcome} {after : Tree}
    (ran : run [config.rule] options context (Tree.ofProgram source program) = (.ok outcome, after)) :
    let tree := Tree.ofProgram source program
    (∀ id, tree.kind? id ≠ some .argumentList → tree.kind? id ≠ some .name →
      after.shape? id = tree.shape? id)
    ∧ (∀ call, tree.IsCall call → ¬ (CallTarget.method config.method).accepts tree call →
      after.callName? call = tree.callName? call ∧ after.arguments call = tree.arguments call)
    ∧ (outcome.converged = true → ∀ call, (CallTarget.method config.method).accepts tree call →
      after.Reaches call → ∃ chosen, config.newName tree call = .ok chosen
        ∧ after.callName? call = (chosen.map config.settledName).or (tree.callName? call)
        ∧ after.arguments call
          = if chosen.isSome then config.kept (tree.arguments call) else tree.arguments call) := by
  intro tree
  have fit : Fit tree := fit_ofProgram inner outer
  have apart : tree.CallsApart := Tree.ofProgram_callsApart source program
  have start : config.Deciding tree tree := ⟨tree.trimmed_refl, fun _ => .undecided rfl rfl⟩
  obtain ⟨kept, deciding, settled⟩ :=
    (RenameMethodByArgument.Deciding.relayed config context apart).run config.safe config.stays
      (config.active context) fit start ran
  refine ⟨fun id => deciding.trimmed.shapes, ?_, ?_⟩
  · intro call called refused
    cases deciding.calls called with
    | undecided named listed => exact ⟨named, listed⟩
    | decided accepted => exact absurd accepted refused
  · intro converged call accepted reached
    have called := RenameMethodByArgument.isCall_of_accepts accepted
    obtain ⟨chosen, chooses⟩ := RenameMethodByArgument.newName_ok fit.proper config call
    have offered : (after.kind? call).any config.rule.kinds.contains := by
      rw [deciding.trimmed.kinds]
      rcases (Tree.name_of_accepts accepted).1 with kind | kind <;> rw [kind] <;> rfl
    -- The rule declines the call in the end, which leaves no plan for it.
    have declines := settled converged reached offered
    obtain ⟨found, answers, _⟩ := RenameMethodByArgument.plan_ok kept.proper config call
    have reads : (config.plan after call).map Option.isSome = .ok false := declines
    have idle : config.plan after call = .ok none := by
      rw [answers] at reads ⊢
      cases found with
      | none => rfl
      | some plan => cases reads
    exact ⟨chosen, chooses, (deciding.calls called).settled deciding.trimmed accepted idle chooses⟩

def decideSpecs : List RuleSpec :=
  [⟨"rename_method_by_argument", [("method", .string "setBody"), ("position", .integer 1),
    ("values", .stringMap [("text/html", "setBody")]), ("default", .string "text"),
    ("keep", .integer 1)]⟩]

-- The new name for the value is the one that the rule is after.
def deciding : RenameMethodByArgument :=
  ⟨"setBody", 1, [("text/html", "setBody")], some "text", some 1⟩

-- The statement `$m->setBody($html, 'text/html');`.
def bodyProgram : List Php.Statement :=
  (Php.program "<?php $m->setBody($html, 'text/html');").toOption.getD []

def bodyTree : Tree :=
  Tree.ofProgram "<?php $m->setBody($html, 'text/html');" bodyProgram

def bodyRun : Except Stop RunOutcome × Tree :=
  run [deciding.rule] {} {} bodyTree

/-- The first pass drops the argument that decided, and the second one takes the default. -/
theorem run_naming_body : Catalog.build decideSpecs = .ok [deciding.rule]
    ∧ ∃ outcome after, bodyRun = (.ok outcome, after) ∧ outcome.editingPasses = 2
      ∧ outcome.converged = true ∧ bodyTree.arguments ⟨9⟩ = [⟨5⟩, ⟨7⟩]
      ∧ after.callName? ⟨9⟩ = some "text" ∧ after.arguments ⟨9⟩ = [⟨5⟩] := by
  have laid : (∀ place ∈ Php.statementPlaces bodyProgram,
        Text.Laid "<?php $m->setBody($html, 'text/html');" place.1 place.2)
      ∧ Text.Laid "<?php $m->setBody($html, 'text/html');"
        ⟨0, "<?php $m->setBody($html, 'text/html');".utf8ByteSize⟩
        (bodyProgram.map Php.Statement.span) := by
    decide +kernel
  have facts : (CallTarget.method "setBody").accepts bodyTree ⟨9⟩
      ∧ bodyTree.arguments ⟨9⟩ = [⟨5⟩, ⟨7⟩]
      ∧ (deciding.newName bodyTree ⟨9⟩).toOption = some (some "setBody")
      ∧ deciding.settledName "setBody" = "text" := by
    decide +kernel
  have ends : (bodyRun.1.toOption.map fun outcome => (outcome.editingPasses, outcome.converged))
        = some (2, true)
      ∧ (Slot.statement, ⟨10⟩) ∈ bodyRun.2.children bodyRun.2.root
      ∧ (Slot.expression, ⟨9⟩) ∈ bodyRun.2.children ⟨10⟩ := by
    decide +kernel
  obtain ⟨accepted, listed, decides, settled⟩ := facts
  refine ⟨rfl, ?_⟩
  generalize ran : bodyRun = result at ends
  rcases result with ⟨stop | outcome, after⟩
  · cases ends.1
  obtain ⟨counted, statement, call⟩ := ends
  obtain ⟨edited, converged⟩ := Prod.mk.inj (Option.some.inj counted)
  obtain ⟨_, _, calls⟩ := run_naming laid.1 laid.2 deciding {} {} ran
  obtain ⟨chosen, chooses, named, kept⟩ :=
    calls converged ⟨9⟩ accepted (.child (.child .self statement) call)
  rw [← bodyTree] at chooses named kept
  rw [chooses] at decides
  cases Option.some.inj decides
  refine ⟨outcome, after, rfl, edited, converged, listed, ?_, ?_⟩
  · rw [named, Option.map_some, settled, Option.some_or]
  · rw [kept, listed]
    rfl

/-- The value of the source asks for the name that the call has, and yet it ends with the default. -/
theorem deciding_decides_twice :
    (deciding.newName bodyTree ⟨9⟩).toOption = some (some "setBody")
      ∧ bodyTree.callName? ⟨9⟩ = some "setBody"
      ∧ (bodyRun.1.toOption.map RunOutcome.converged) = some true
      ∧ bodyRun.2.callName? ⟨9⟩ = some "text" ∧ bodyRun.2.arguments ⟨9⟩ = [⟨5⟩] := by
  decide +kernel

end Run

end Codemod
