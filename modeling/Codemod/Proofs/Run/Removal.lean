import Codemod.Proofs.Catalog.Trimming
import Codemod.Proofs.Run.Sweep

/-!
Runs that take an argument away. The rule looks at the same position in every pass, where another
argument stands once one is gone: with a value each pass takes away one argument that is it, until
another one stands at the position; without a value only a last argument goes, and once. Main
statement: this tells which arguments of a call are lost (`run_removal`).
-/

namespace Codemod

open Step

namespace RemoveArgument

variable {config : RemoveArgument} {tree after : Tree} {call argument : NodeId}

def fits (tree : Tree) (expected : String) (argument : NodeId) : Bool :=
  match tree.plainValue? argument with
  | some value =>
      match hasValue tree value expected with
      | .ok answer => answer
      | .error _ => false
  | none => false

theorem fits_iff {expected : String} : fits tree expected argument = true
    ↔ ∃ value, tree.shape? argument = some (.argument none false value)
      ∧ hasValue tree value expected = .ok true := by
  unfold fits
  constructor
  · intro held
    split at held
    · next value plain =>
        refine ⟨value, Tree.plainValue?_eq_some.mp plain, ?_⟩
        split at held
        · next answer reads => rw [reads, held]
        · cases held
    · cases held
  · rintro ⟨value, shaped, reads⟩
    rw [Tree.plainValue?_eq_some.mpr shaped]
    dsimp only
    rw [reads]

theorem fits_of_trimmed (trimmed : tree.Trimmed after) (expected : String) (argument : NodeId) :
    fits after expected argument = fits tree expected argument := by
  unfold fits hasValue
  rw [trimmed.plainValue?]
  simp only [trimmed.stringValue, trimmed.trimmedText?]

structure Takes (config : RemoveArgument) (tree : Tree) (call argument : NodeId) : Prop where
  accepted : config.target.accepts tree call
  listed : (tree.arguments call)[config.position]? = some argument
  last : config.value = none → (tree.arguments call).length = config.position + 1
  fits : ∀ expected ∈ config.value, RemoveArgument.fits tree expected argument

theorem hasValue_ok (proper : tree.Proper) (value : NodeId) (expected : String) :
    ∃ answer, hasValue tree value expected = .ok answer := by
  obtain ⟨text, reads⟩ := Tree.stringValue_ok proper value
  rw [hasValue, reads]
  exact ⟨_, rfl⟩

/-- A query that gives the node, if any, that stands at the position and is fit to be taken. -/
theorem takes_of_held {held : NodeId} {fit : Prop} [Decidable fit]
    (accepted : config.target.accepts tree call)
    (listed : (tree.arguments call)[config.position]? = some held)
    (enough : (config.value = none → (tree.arguments call).length = config.position + 1)
      ∧ (∀ expected ∈ config.value, RemoveArgument.fits tree expected held) ↔ fit) (argument : NodeId) :
    (if fit then some held else none) = some argument ↔ config.Takes tree call argument := by
  constructor
  · intro found
    split at found
    · next holds =>
        cases found
        obtain ⟨last, fits⟩ := enough.mpr holds
        exact ⟨accepted, listed, last, fits⟩
    · cases found
  · rintro ⟨_, same, last, fits⟩
    rw [listed] at same
    cases same
    exact if_pos (enough.mp ⟨last, fits⟩)

theorem argument?_spec (proper : tree.Proper) (config : RemoveArgument) (call : NodeId) :
    ∃ found, config.argument? tree call = .ok found
      ∧ ∀ argument, found = some argument ↔ config.Takes tree call argument := by
  unfold argument?
  by_cases accepted : config.target.accepts tree call
  · rw [if_pos accepted]
    cases listed : (tree.arguments call)[config.position]? with
    | none =>
        refine ⟨none, rfl, fun argument => iff_of_false nofun fun takes => ?_⟩
        rw [takes.listed] at listed
        cases listed
    | some held =>
        cases given : config.value with
        | none =>
            refine ⟨_, rfl, takes_of_held accepted listed ?_⟩
            simp [given]
        | some expected =>
            have value : tree.positionalValue? call config.position = tree.plainValue? held := by
              rw [Tree.positionalValue?_eq, listed]
              rfl
            dsimp only
            rw [value]
            cases plain : tree.plainValue? held with
            | none =>
                -- An argument that is named or unpacked has no plain value, so it fits none.
                have misfit : fits tree expected held = false := by
                  rw [fits, plain]
                refine ⟨none, rfl, fun argument => iff_of_false nofun fun takes => ?_⟩
                have fit := takes.fits expected given
                have same := takes.listed
                rw [listed] at same
                cases same
                rw [misfit] at fit
                cases fit
            | some value =>
                obtain ⟨answer, reads⟩ := hasValue_ok proper value expected
                have same : fits tree expected held = answer := by
                  rw [fits, plain]
                  dsimp only
                  rw [reads]
                dsimp only
                rw [reads]
                refine ⟨_, rfl, takes_of_held accepted listed ?_⟩
                simp [given, same]
  · rw [if_neg accepted]
    exact ⟨none, rfl, fun argument => iff_of_false nofun fun takes => accepted takes.accepted⟩

-- The arguments that are left once some have been taken away from the position on.
def left (config : RemoveArgument) (arguments : List NodeId) (count : Nat) : List NodeId :=
  arguments.take config.position ++ arguments.drop (config.position + count)

theorem left_zero (arguments : List NodeId) : config.left arguments 0 = arguments :=
  List.take_append_drop _ _

theorem getElem?_left (arguments : List NodeId) (count : Nat) :
    (config.left arguments count)[config.position]? = arguments[config.position + count]? := by
  rw [left, List.getElem?_append, List.length_take]
  split
  · next short =>
      rw [List.getElem?_eq_none (by rw [List.length_take]; omega), List.getElem?_eq_none (by omega)]
  · rw [List.getElem?_drop]
    by_cases long : config.position ≤ arguments.length
    · congr 1
      omega
    · rw [List.getElem?_eq_none (by omega), List.getElem?_eq_none (by omega)]

theorem left_succ {arguments : List NodeId} {count : Nat}
    (nodup : (config.left arguments count).Nodup)
    (listed : arguments[config.position + count]? = some argument) :
    (config.left arguments count).filter (fun other => other ∉ [argument])
      = config.left arguments (count + 1) := by
  obtain ⟨short, same⟩ := List.getElem?_eq_some_iff.mp listed
  have next : arguments.drop (config.position + count)
      = argument :: arguments.drop (config.position + (count + 1)) := by
    rw [List.drop_eq_getElem_cons short, same]
    rfl
  rw [left, next] at nodup ⊢
  obtain ⟨_, late, apart⟩ := List.nodup_append.mp nodup
  have early : ∀ other ∈ arguments.take config.position, other ≠ argument :=
    fun other member => apart other member argument List.mem_cons_self
  have later : ∀ other ∈ arguments.drop (config.position + (count + 1)), other ≠ argument := by
    rintro other member rfl
    exact (List.nodup_cons.mp late).1 member
  rw [List.filter_append, List.filter_cons,
    List.filter_eq_self.mpr fun other member => by simpa using early other member,
    List.filter_eq_self.mpr fun other member => by simpa using later other member]
  simp [left]

/-- The number of arguments that a call can lose: a last one without a value, and otherwise those from
the position on up to the first that is not fit. -/
def losses (config : RemoveArgument) (tree : Tree) (call : NodeId) : Nat :=
  if config.target.accepts tree call then
    match config.value with
    | none => if (tree.arguments call).length = config.position + 1 then 1 else 0
    | some expected =>
        ((tree.arguments call).drop config.position).findIdx fun held => !fits tree expected held
  else 0

theorem accepts_of_losses {count : Nat} (few : count ≤ config.losses tree call) (loses : count ≠ 0) :
    config.target.accepts tree call := by
  refine Classical.byContradiction fun refused => loses ?_
  rw [losses, if_neg refused] at few
  omega

/-- Without a value nothing but a last argument can be lost. -/
theorem last_of_losses {count : Nat} (few : count ≤ config.losses tree call) (loses : count ≠ 0)
    (given : config.value = none) :
    count = 1 ∧ (tree.arguments call).length = config.position + 1 := by
  have accepted := accepts_of_losses few loses
  rw [losses, if_pos accepted, given] at few
  dsimp only at few
  split at few
  · next last => exact ⟨by omega, last⟩
  · omega

/-- With a value only arguments that are it can be lost. -/
theorem fits_of_losses {count : Nat} (few : count ≤ config.losses tree call) {expected : String}
    (given : config.value = some expected)
    (member : argument ∈ ((tree.arguments call).drop config.position).take count) :
    fits tree expected argument := by
  obtain ⟨index, short, same⟩ := List.mem_take_iff_getElem.mp member
  have accepted := accepts_of_losses few (by omega)
  rw [losses, if_pos accepted, given] at few
  have fit := List.not_of_lt_findIdx (Nat.lt_of_lt_of_le (Nat.lt_of_lt_of_le short (by omega)) few)
  rw [same] at fit
  simpa using fit

section

variable {count : Nat} (trimmed : tree.Trimmed after)
variable (targeted : config.target.accepts after call = config.target.accepts tree call)
variable (still : after.arguments call = config.left (tree.arguments call) count)

include trimmed targeted still

/-- An argument that is taken is one that the call can still lose. -/
theorem Takes.lt_losses (takes : config.Takes after call argument)
    (few : count ≤ config.losses tree call) : count + 1 ≤ config.losses tree call := by
  have listed := takes.listed
  rw [still, getElem?_left] at listed
  have accepted := takes.accepted
  rw [targeted] at accepted
  unfold losses at few ⊢
  rw [if_pos accepted] at few ⊢
  cases given : config.value with
  | none =>
      have last := takes.last given
      rw [still, left, List.length_append, List.length_take, List.length_drop] at last
      rw [given] at few
      dsimp only at few ⊢
      split at few <;> split <;> omega
  | some expected =>
      have fit := takes.fits expected given
      rw [fits_of_trimmed trimmed] at fit
      rw [given] at few
      dsimp only at few ⊢
      -- The first argument that is not fit would be the one that was taken.
      refine Nat.lt_of_le_of_ne few ?_
      rintro rfl
      rw [← List.getElem?_drop] at listed
      obtain ⟨inside, same⟩ := List.getElem?_eq_some_iff.mp listed
      have misfit := List.findIdx_getElem (w := inside)
      simp [same, fit] at misfit

/-- Where nothing is taken any more the call has lost what it can lose. -/
theorem eq_losses (idle : ∀ argument, ¬ config.Takes after call argument)
    (few : count ≤ config.losses tree call) : count = config.losses tree call := by
  have entry := config.getElem?_left (tree.arguments call) count
  rw [← still] at entry
  unfold losses at few ⊢
  by_cases accepted : config.target.accepts tree call
  · rw [if_pos accepted] at few ⊢
    cases given : config.value with
    | none =>
        rw [given] at few
        dsimp only at few ⊢
        split
        · next whole =>
            rw [if_pos whole] at few
            refine Nat.le_antisymm few (Nat.pos_of_ne_zero ?_)
            rintro rfl
            rw [left_zero] at still
            have inside : config.position < (tree.arguments call).length := by omega
            refine idle (tree.arguments call)[config.position] ⟨?_, ?_, ?_, by simp [given]⟩
            · rw [targeted, accepted]
            · rw [still, List.getElem?_eq_getElem inside]
            · rw [still]
              exact fun _ => whole
        · next shorter =>
            rw [if_neg shorter] at few
            omega
    | some expected =>
        rw [given] at few
        dsimp only at few ⊢
        -- Otherwise the next one, which is fit, stands at the position and can be taken.
        refine Nat.le_antisymm few (Nat.le_of_not_lt fun less => ?_)
        have inside := Nat.lt_of_lt_of_le less List.findIdx_le_length
        have fit := List.not_of_lt_findIdx less
        rw [← List.getElem?_drop, List.getElem?_eq_getElem inside] at entry
        refine idle _ ⟨?_, entry, by simp [given], ?_⟩
        · rw [targeted, accepted]
        · intro other same
          obtain rfl : expected = other := Option.some.inj (given.symm.trans same)
          rw [fits_of_trimmed trimmed]
          simpa using fit
  · rw [if_neg accepted] at few ⊢
    omega

end

theorem stays (config : RemoveArgument) : config.rule.Stays := by
  intro tree call context verdict after ran
  have unfolded : (config.rule.apply call context).run tree = (config.apply call).run tree := rfl
  rw [unfolded, apply] at ran
  obtain ⟨found, middle, _, rest⟩ := run_bind_eq_ok.mp ran
  cases found with
  | none =>
      cases rest
      rfl
  | some argument =>
      obtain ⟨_, last, _, answers⟩ := run_bind_eq_ok.mp rest
      cases answers
      rfl

/-- What becomes of a call at which the rule is accepted. -/
theorem applied_takes {edited : Tree} (fit : Run.Fit tree) (reached : tree.Reaches call)
    (offered : (tree.kind? call).any config.rule.kinds.contains) {context : Context}
    (accepted : config.rule.accepts tree.checkpoint call context = .ok true)
    (applied : (config.rule.apply call context).run tree = (.ok .unchanged, edited)) :
    ∃ argument, config.Takes tree call argument ∧ tree.Trims call edited
      ∧ (∀ {id}, tree.kind? id ≠ some .argumentList → edited.shape? id = tree.shape? id)
      ∧ edited.arguments call
        = (tree.arguments call).filter fun other => other ∉ [argument] := by
  obtain ⟨found, answers, takes⟩ := argument?_spec fit.proper config call
  have reads : (config.argument? tree call).map Option.isSome = .ok true := accepted
  rw [answers] at reads
  cases found with
  | none => cases reads
  | some argument =>
      have taken := (takes argument).mp rfl
      obtain ⟨after, ran, trims⟩ := config.run_apply (fit.tidy.sub reached) offered answers
        (List.mem_of_getElem? taken.listed)
      have same : (config.apply call).run tree = (.ok .unchanged, edited) := applied
      rw [ran] at same
      cases same
      exact ⟨argument, taken, trims⟩

theorem active (config : RemoveArgument) (context : Context) : Run.Active config.rule context := by
  intro tree edited call fit reached offered accepted reworked applied same
  obtain ⟨argument, takes, _, _, kept⟩ := applied_takes fit reached offered accepted applied
  have still := Tree.arguments_of_commit (reworked.quiet same).1 call
  have member := List.mem_of_getElem? takes.listed
  rw [← still, kept, List.mem_filter] at member
  simp at member

/-- A tree in which calls have lost arguments, each at most as many as its limit. -/
structure Removed (config : RemoveArgument) (tree : Tree) (limit : NodeId → Nat) (after : Tree) :
    Prop where
  trimmed : tree.Trimmed after
  shapes : ∀ {id}, tree.kind? id ≠ some .argumentList → after.shape? id = tree.shape? id
  still : ∀ {id}, (∀ call slot, tree.IsCall call → config.target.accepts tree call →
    (slot, id) ∉ tree.children call) → after.shape? id = tree.shape? id
  lists : ∀ {call}, tree.IsCall call → ∃ count, count ≤ limit call ∧ count ≤ config.losses tree call
    ∧ after.arguments call = config.left (tree.arguments call) count

namespace Removed

variable {limit : NodeId → Nat}

theorem refl (config : RemoveArgument) (tree : Tree) : config.Removed tree (fun _ => 0) tree where
  trimmed := tree.trimmed_refl
  shapes _ := rfl
  still _ := rfl
  lists _ := ⟨0, Nat.le_refl _, Nat.zero_le _, (left_zero _).symm⟩

theorem mono (removed : config.Removed tree limit after) {more : NodeId → Nat}
    (grows : ∀ call, limit call ≤ more call) : config.Removed tree more after where
  trimmed := removed.trimmed
  shapes := removed.shapes
  still := removed.still
  lists called := by
    obtain ⟨count, few, rest⟩ := removed.lists called
    exact ⟨count, Nat.le_trans few (grows _), rest⟩

theorem of_commit (removed : config.Removed tree limit after) {other : Tree}
    (same : other.commit = after.commit) : config.Removed tree limit other := by
  have shapes := Tree.shapes_of_commit same
  constructor
  · exact removed.trimmed.trans (Tree.trimmed_of_commit same)
  · intro id list
    rw [shapes, removed.shapes list]
  · intro id apart
    rw [shapes, removed.still apart]
  · intro call called
    rw [Tree.arguments_of_commit same]
    exact removed.lists called

theorem accepts (removed : config.Removed tree limit after) (called : tree.IsCall call) :
    config.target.accepts after call = config.target.accepts tree call := by
  have named : after.callName? call = tree.callName? call :=
    removed.trimmed.callName?_of_callee called fun _ callee _ =>
      removed.trimmed.spelledName? removed.shapes callee
  rw [CallTarget.accepts, removed.trimmed.kinds, named, CallTarget.accepts]

/-- One more argument is taken from one call. -/
theorem applied (apart : tree.CallsApart) (removed : config.Removed tree limit after)
    {more : NodeId → Nat} (grows : ∀ call, limit call ≤ more call) (one : limit call + 1 ≤ more call)
    (fit : Run.Fit after) (reached : after.Reaches call) {edited : Tree}
    (offered : (after.kind? call).any config.rule.kinds.contains) {context : Context}
    (accepted : config.rule.accepts after.checkpoint call context = .ok true)
    (applied : (config.rule.apply call context).run after = (.ok .unchanged, edited)) :
    config.Removed tree more edited := by
  obtain ⟨argument, takes, trims, shapes, kept⟩ :=
    applied_takes fit reached offered accepted applied
  have called : tree.IsCall call := by
    rw [Tree.IsCall, ← removed.trimmed.kinds]
    exact offered
  have children := removed.trimmed.children_of_call called
  have targeted := removed.accepts called
  constructor
  · exact removed.trimmed.trans trims.trimmed
  · intro id other
    rw [shapes (by rwa [removed.trimmed.kinds]), removed.shapes other]
  · intro id outside
    have unheld : ∀ slot, (slot, id) ∉ after.children call := by
      rw [children]
      exact fun slot => outside call slot called (targeted.symm.trans takes.accepted)
    rw [trims.still unheld, removed.still outside]
  · intro other otherCalled
    by_cases same : other = call
    · subst same
      obtain ⟨count, few, fits, still⟩ := removed.lists called
      refine ⟨count + 1, by omega, ?_, ?_⟩
      · exact takes.lt_losses removed.trimmed targeted still fits
      · have listed := takes.listed
        rw [still, getElem?_left] at listed
        have nodup := Tree.IsCall.nodup_arguments offered (fit.tidy.sub reached)
        rw [kept, still, left_succ (still ▸ nodup) listed]
    · obtain ⟨count, few, fits, still⟩ := removed.lists otherCalled
      have beside := trims.others (removed.trimmed.isCall otherCalled) (by
        rw [removed.trimmed.children_of_call otherCalled, children]
        exact apart otherCalled called same)
      exact ⟨count, Nat.le_trans few (grows other), fits, beside.1.trans still⟩

/-- A call loses an argument with its visit, and no visit but its own takes one from it. -/
theorem relayed (config : RemoveArgument) (context : Context) (apart : tree.CallsApart) :
    Run.Relayed config.rule context fun count after => config.Removed tree (fun _ => count) after where
  of_commit same removed := removed.of_commit same
  sweep := by
    intro count start _ removed
    -- Within a pass the limit of a call grows with its visit.
    refine ⟨fun after marks =>
      config.Removed tree (fun call => if marks.contains call then count + 1 else count) after,
      ?_, removed.mono (by simp), ?_⟩
    · constructor
      · exact fun same removed => removed.of_commit same
      · intro after marks id sweeping _ _ _
        apply sweeping.holds.mono
        intro call
        simp only [NodeSet.contains_insert]
        split <;> split <;> simp_all
      · intro after edited marks id sweeping reached fresh offered accepted _ applied
        apply sweeping.holds.applied apart _ _ sweeping.fit reached offered accepted applied
        · intro call
          simp only [NodeSet.contains_insert]
          split <;> split <;> simp_all
        · simp [fresh]
    · intro after marks sweeping _
      apply sweeping.holds.mono
      intro call
      split <;> omega

end Removed

end RemoveArgument

namespace Run

/-- Over a run of the rule a program changes in the lists of the calls that it is after, and there
arguments are lost from the position on, at most one of a call in each pass that changes the tree.
Without a value it is the last argument, and no other; with a value each argument that is lost is
neither named nor unpacked, and the text of its value, or the string that it stands for, is the one
that was given. In the end, where a run converged, no call that can still be reached has anything to
lose: those with a value have lost all such arguments that stood next to each other. -/
theorem run_removal {source : String} {program : List Php.Statement}
    (inner : ∀ place ∈ Php.statementPlaces program, Text.Laid source place.1 place.2)
    (outer : Text.Laid source ⟨0, source.utf8ByteSize⟩ (program.map Php.Statement.span))
    (config : RemoveArgument) (options : RunOptions) (context : Context) {outcome : RunOutcome}
    {after : Tree}
    (ran : run [config.rule] options context (Tree.ofProgram source program) = (.ok outcome, after)) :
    let tree := Tree.ofProgram source program
    (∀ id, (∀ call slot, tree.IsCall call → config.target.accepts tree call →
        (slot, id) ∉ tree.children call) ∨ tree.kind? id ≠ some .argumentList →
      after.shape? id = tree.shape? id)
    ∧ ∀ call, tree.IsCall call → ∃ count ≤ outcome.editingPasses,
      after.arguments call = (tree.arguments call).take config.position
        ++ (tree.arguments call).drop (config.position + count)
      ∧ (count ≠ 0 → config.target.accepts tree call)
      ∧ (config.value = none → count ≠ 0 →
        count = 1 ∧ (tree.arguments call).length = config.position + 1)
      ∧ (∀ expected ∈ config.value,
        ∀ argument ∈ ((tree.arguments call).drop config.position).take count,
          ∃ value, tree.shape? argument = some (.argument none false value)
            ∧ RemoveArgument.hasValue tree value expected = .ok true)
      ∧ (outcome.converged = true → after.Reaches call → count = config.losses tree call) := by
  intro tree
  have fit : Fit tree := fit_ofProgram inner outer
  have apart : tree.CallsApart := Tree.ofProgram_callsApart source program
  obtain ⟨kept, removed, settled⟩ := (RemoveArgument.Removed.relayed config context apart).run
    config.safe config.stays (config.active context) fit (.refl config tree) ran
  constructor
  · rintro id (outside | other)
    · exact removed.still outside
    · exact removed.shapes other
  intro call called
  obtain ⟨count, few, fits, still⟩ := removed.lists called
  refine ⟨count, few, still, RemoveArgument.accepts_of_losses fits, ?_, ?_, ?_⟩
  · intro given loses
    exact RemoveArgument.last_of_losses fits loses given
  · intro expected given argument member
    exact RemoveArgument.fits_iff.mp (RemoveArgument.fits_of_losses fits given member)
  · intro converged reached
    -- The rule declines the call in the end, so there was nothing more to take from it.
    have declines := settled converged reached (removed.trimmed.isCall called)
    obtain ⟨found, answers, takes⟩ := RemoveArgument.argument?_spec kept.proper config call
    have reads : (config.argument? after call).map Option.isSome = .ok false := declines
    rw [answers] at reads
    refine RemoveArgument.eq_losses removed.trimmed (removed.accepts called) still ?_ fits
    intro argument taken
    rw [(takes argument).mpr taken] at reads
    cases reads

def removeSpecs : List RuleSpec :=
  [⟨"remove_argument",
    [("function", .string "f"), ("position", .integer 0), ("value", .string "x")]⟩]

def removing : RemoveArgument :=
  ⟨.function "f", 0, some "x"⟩

-- The statement `f('x', 'x');`.
def twiceProgram : List Php.Statement :=
  (Php.program "<?php f('x', 'x');").toOption.getD []

def twiceTree : Tree :=
  Tree.ofProgram "<?php f('x', 'x');" twiceProgram

def twiceRun : Except Stop RunOutcome × Tree :=
  run [removing.rule] {} {} twiceTree

/-- Two passes take both arguments, and the third one confirms. -/
theorem run_removal_twice : Catalog.build removeSpecs = .ok [removing.rule]
    ∧ ∃ outcome after, twiceRun = (.ok outcome, after) ∧ outcome.editingPasses = 2
      ∧ outcome.converged = true ∧ twiceTree.arguments ⟨8⟩ = [⟨4⟩, ⟨6⟩] ∧ after.arguments ⟨8⟩ = [] := by
  have laid : (∀ place ∈ Php.statementPlaces twiceProgram,
        Text.Laid "<?php f('x', 'x');" place.1 place.2)
      ∧ Text.Laid "<?php f('x', 'x');" ⟨0, "<?php f('x', 'x');".utf8ByteSize⟩
        (twiceProgram.map Php.Statement.span) := by
    decide +kernel
  have facts : twiceTree.kind? ⟨8⟩ = some .functionCall ∧ twiceTree.arguments ⟨8⟩ = [⟨4⟩, ⟨6⟩]
      ∧ removing.losses twiceTree ⟨8⟩ = 2 := by
    decide +kernel
  have ends : (twiceRun.1.toOption.map fun outcome => (outcome.editingPasses, outcome.converged))
        = some (2, true)
      ∧ (Slot.statement, ⟨9⟩) ∈ twiceRun.2.children twiceRun.2.root
      ∧ (Slot.expression, ⟨8⟩) ∈ twiceRun.2.children ⟨9⟩ := by
    decide +kernel
  obtain ⟨kind, listed, losses⟩ := facts
  refine ⟨rfl, ?_⟩
  generalize ran : twiceRun = result at ends
  rcases result with ⟨stop | outcome, after⟩
  · cases ends.1
  obtain ⟨counted, statement, call⟩ := ends
  obtain ⟨edited, converged⟩ := Prod.mk.inj (Option.some.inj counted)
  obtain ⟨_, lists⟩ := run_removal laid.1 laid.2 removing {} {} ran
  obtain ⟨count, _, left, _, _, _, settled⟩ := lists ⟨8⟩ (by rw [Tree.IsCall, ← twiceTree, kind]; rfl)
  have whole := settled converged (.child (.child .self statement) call)
  rw [← twiceTree, losses] at whole
  rw [← twiceTree, listed, whole] at left
  exact ⟨outcome, after, rfl, edited, converged, listed, left⟩

/-- A call loses two arguments to one value, and another one loses an argument that is named. -/
theorem removal_goes_on :
    let named := (Php.program "<?php f($a, name: $b);").toOption.getD []
    let tree := Tree.ofProgram "<?php f($a, name: $b);" named
    let last : RemoveArgument := ⟨.function "f", 1, none⟩
    ((twiceRun.1.toOption.map RunOutcome.converged) = some true
      ∧ twiceTree.arguments ⟨8⟩ = [⟨4⟩, ⟨6⟩] ∧ twiceRun.2.arguments ⟨8⟩ = []
      ∧ (twiceRun.2.print {}).toOption = some "<?php f();")
    ∧ Catalog.build [⟨"remove_argument", [("function", .string "f"), ("position", .integer 1)]⟩]
      = .ok [last.rule]
    ∧ tree.arguments ⟨8⟩ = [⟨4⟩, ⟨6⟩] ∧ tree.shape? ⟨6⟩ = some (.argument (some "name") false ⟨5⟩)
    ∧ (run [last.rule] {} {} tree).2.arguments ⟨8⟩ = [⟨4⟩] := by
  refine ⟨?_, rfl, ?_⟩ <;> decide +kernel

end Run

end Codemod
