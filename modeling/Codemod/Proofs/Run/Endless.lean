import Codemod.Proofs.Run.Ending
import Codemod.SourceUnit

/-!
A run that does not end. One rule wraps the argument of `to` in a new `Address`, another makes a call
of `to` on a `Foo` of every new `Address`. Each takes up what the other leaves: the call that comes of
the creation is visited at once, its argument is wrapped, and the creation around it stands below and
was not visited yet. No node is ever replaced twice, so that no limit is met, and a walk takes all the
steps it is given. Main statement: `SourceUnit.feeding_exhausted`.
-/

namespace Codemod

open Step

/-! ### Nodes that are added -/

namespace Tree

variable {tree before middle after : Tree}

/-- What was in the arena stands there as it did, and the given nodes follow it. -/
structure Gains (before : Tree) (shapes : List Shape) (after : Tree) : Prop where
  size : after.size = before.size + shapes.length
  old : ∀ {id shape}, before.shape? id = some shape → after.shape? id = some shape
  new : ∀ index shape, shapes[index]? = some shape →
    after.shape? ⟨before.size + index⟩ = some shape

theorem Gains.append {shapes more : List Shape} (first : before.Gains shapes middle)
    (second : middle.Gains more after) : before.Gains (shapes ++ more) after where
  size := by
    rw [second.size, first.size, List.length_append, Nat.add_assoc]
  old := second.old ∘ first.old
  new := by
    intro index shape found
    by_cases early : index < shapes.length
    · rw [List.getElem?_append_left early] at found
      exact second.old (first.new index shape found)
    · rw [List.getElem?_append_right (Nat.le_of_not_lt early)] at found
      have place : before.size + index = middle.size + (index - shapes.length) := by
        rw [first.size]
        omega
      rw [place]
      exact second.new _ shape found

theorem Gains.contains {shapes : List Shape} (gains : before.Gains shapes after) {id : NodeId}
    (inside : before.contains id) : after.contains id := by
  have size := gains.size
  rw [contains_iff] at inside ⊢
  omega

end Tree

namespace Edit

variable {tree : Tree}

theorem alloc_gains (tree : Tree) (shape : Shape)
    (inside : ∀ child ∈ shape.children, tree.contains child.2) :
    ∃ after, (alloc shape).run tree = (.ok ⟨tree.size⟩, after) ∧ tree.Gains [shape] after := by
  refine ⟨tree.added shape, run_alloc_inside inside, ?_⟩
  constructor
  · exact tree.size_added shape
  · intro id former found
    rw [Tree.shape?_added, if_neg (Tree.ne_next_of_contains (Tree.contains_of_shape? found))]
    exact found
  · intro index new found
    cases index with
    | zero =>
        cases found
        rw [Tree.shape?_added]
        exact if_pos rfl
    | succ index => cases found

theorem newInstance_gains (tree : Tree) (className : String) (arguments : Option NodeId)
    (inside : ∀ list ∈ arguments, tree.contains list) :
    ∃ after, (newInstance className arguments).run tree = (.ok ⟨tree.size + 1⟩, after)
      ∧ tree.Gains [.name className, .new ⟨tree.size⟩ arguments] after := by
  obtain ⟨middle, names, first⟩ := alloc_gains tree (.name className) nofun
  have named : middle.contains ⟨tree.size⟩ := Tree.contains_of_shape? (first.new 0 _ rfl)
  have held : ∀ child ∈ (Shape.new ⟨tree.size⟩ arguments).children, middle.contains child.2 := by
    intro child member
    rcases List.mem_cons.mp member with rfl | listed
    · exact named
    · obtain ⟨list, given, rfl⟩ := List.mem_map.mp listed
      exact first.contains (inside list (Option.mem_toList.mp given))
  obtain ⟨after, creates, second⟩ := alloc_gains middle (.new ⟨tree.size⟩ arguments) held
  refine ⟨after, ?_, first.append second⟩
  rw [newInstance, name, run_bind_ok names, creates, first.size]
  rfl

theorem methodCall_gains {object arguments : NodeId} (method : String)
    (holds : tree.contains object) (listed : tree.contains arguments) :
    ∃ after, (methodCall object method arguments).run tree = (.ok ⟨tree.size + 1⟩, after)
      ∧ tree.Gains [.name method, .methodCall object ⟨tree.size⟩ arguments false] after := by
  obtain ⟨middle, names, first⟩ := alloc_gains tree (.name method) nofun
  have named : middle.contains ⟨tree.size⟩ := Tree.contains_of_shape? (first.new 0 _ rfl)
  have held : ∀ child ∈ (Shape.methodCall object ⟨tree.size⟩ arguments false).children,
      middle.contains child.2 := by
    intro child member
    simp only [Shape.children, List.mem_cons, List.not_mem_nil, or_false] at member
    rcases member with rfl | rfl | rfl
    · exact first.contains holds
    · exact named
    · exact first.contains listed
  obtain ⟨after, calls, second⟩ := alloc_gains middle _ held
  refine ⟨after, ?_, first.append second⟩
  rw [methodCall, name, run_bind_ok names, calls, first.size]
  rfl

theorem argumentsOf_gains {value : NodeId} (inside : tree.contains value) :
    ∃ after, (argumentsOf [value]).run tree = (.ok ⟨tree.size + 1⟩, after)
      ∧ tree.Gains [.argument none false value, .argumentList [⟨tree.size⟩]] after := by
  have given : ∀ child ∈ (Shape.argument none false value).children, tree.contains child.2 := by
    intro child member
    cases List.mem_singleton.mp member
    exact inside
  obtain ⟨middle, passes, first⟩ := alloc_gains tree _ given
  have held : ∀ child ∈ (Shape.argumentList [⟨tree.size⟩]).children, middle.contains child.2 := by
    intro child member
    cases List.mem_singleton.mp member
    exact Tree.contains_of_shape? (first.new 0 _ rfl)
  obtain ⟨after, lists, second⟩ := alloc_gains middle _ held
  have single : ([value].mapM argument).run tree = (.ok [⟨tree.size⟩], middle) := by
    rw [List.mapM_cons, argument, run_bind_ok passes]
    rfl
  refine ⟨after, ?_, first.append second⟩
  rw [argumentsOf, run_bind_ok single, argumentList, lists, first.size]
  rfl

end Edit

/-! ### The two rules -/

namespace Run

def feedWrap : WrapArguments where
  methods := [("to", "")]
  className := "Address"

def feedBuilder : NewToBuilder where
  className := "Address"
  replacement := "Foo"
  method := "to"

-- The rule that wraps, and the one that takes up what it leaves.
def feedRules : List Rule :=
  [feedWrap.rule, feedBuilder.rule]

def feedSpecs : List RuleSpec :=
  wrapSpecs ++ [⟨"new_to_builder",
    [("class", .string "Address"), ("replacement", .string "Foo"), ("method", .string "to")]⟩]

theorem feedRules_built : Catalog.build feedSpecs = .ok feedRules := by
  with_unfolding_all rfl

end Run

namespace Tree

variable {tree after : Tree} {creation name list argument value call object method : NodeId}

structure Passes (tree : Tree) (list argument value : NodeId) : Prop where
  list : tree.shape? list = some (.argumentList [argument])
  argument : tree.shape? argument = some (.argument none false value)
  value : ∃ literal, tree.shape? value = some (.literal literal)

structure Creates (tree : Tree) (creation name list argument value : NodeId) : Prop where
  creation : tree.shape? creation = some (.new name (some list))
  name : tree.shape? name = some (.name "Address")
  passes : tree.Passes list argument value

def Idle (tree : Tree) (id : NodeId) : Prop :=
  (∃ shape, tree.shape? id = some shape ∧ shape.children = [])
    ∨ ∃ name, tree.shape? id = some (.new name none) ∧ tree.shape? name = some (.name "Foo")

structure Sends (tree : Tree) (call object method list argument value : NodeId) : Prop where
  call : tree.shape? call = some (.methodCall object method list false)
  object : tree.Idle object
  method : tree.shape? method = some (.name "to")
  passes : tree.Passes list argument value

/-- The literal of a call was wrapped, in nodes that follow those that were there. -/
structure Wraps (before : Tree) (call object method value : NodeId) (after : Tree) : Prop where
  size : after.size = before.size + 6
  old : ∀ {id shape}, id ≠ call → before.shape? id = some shape → after.shape? id = some shape
  call : after.shape? call = some (.methodCall object method ⟨before.size + 5⟩ false)
  list : after.shape? ⟨before.size + 5⟩ = some (.argumentList [⟨before.size + 4⟩])
  argument : after.shape? ⟨before.size + 4⟩ = some (.argument none false ⟨before.size + 3⟩)
  creates : after.Creates ⟨before.size + 3⟩ ⟨before.size + 2⟩ ⟨before.size + 1⟩ ⟨before.size⟩ value

-- `(new Foo)->to` with the given list, in nodes that follow those that are there.
def takenUp (tree : Tree) (list : NodeId) : List Shape :=
  [.name "Foo", .new ⟨tree.size⟩ none, .name "to",
    .methodCall ⟨tree.size + 1⟩ ⟨tree.size + 2⟩ list false]

theorem Passes.arguments_in (passes : tree.Passes list argument value) :
    tree.childrenIn list .argument = [argument] := by
  simp [childrenIn, children, passes.list, Shape.children, Shape.tagged]

theorem builder_targets (creates : tree.Creates creation name list argument value) :
    Run.feedBuilder.target? tree creation = some creation := by
  have kind : tree.kind? creation = some .new := kind?_of_shape? creates.creation
  have named : tree.child? creation .className = some name := by
    simp [child?, childrenIn, children, creates.creation, Shape.children, Shape.tagged]
  have spelled : tree.instantiatedClass? creation = some "Address" := by
    simp [instantiatedClass?, named, spelledName?, creates.name]
  simp only [NewToBuilder.target?, kind, NewToBuilder.creates, spelled]
  rfl

theorem builder_applies (creates : tree.Creates creation name list argument value) :
    ∃ after, (Run.feedBuilder.apply creation).run tree
        = (.ok (.replaced ⟨tree.size + 3⟩), after)
      ∧ tree.Gains (tree.takenUp list) after := by
  have kind : tree.kind? creation = some .new := kind?_of_shape? creates.creation
  have named : tree.child? creation .className = some name := by
    simp [child?, childrenIn, children, creates.creation, Shape.children, Shape.tagged]
  have listed : tree.child? creation .constructorArguments = some list := by
    simp [child?, childrenIn, children, creates.creation, Shape.children, Shape.tagged]
  have arguments : tree.arguments creation = [argument] := by
    simp [Tree.arguments, kind, listed, creates.passes.arguments_in]
  obtain ⟨middle, instantiates, first⟩ :=
    Edit.newInstance_gains tree Run.feedBuilder.replacement none (by rintro _ ⟨⟩)
  have built : middle.contains ⟨tree.size + 1⟩ := contains_of_shape? (first.new 1 _ rfl)
  have kept : middle.contains list := first.contains (contains_of_shape? creates.passes.list)
  obtain ⟨after, calls, second⟩ := Edit.methodCall_gains Run.feedBuilder.method built kept
  refine ⟨after, ?_, ?_⟩
  · rw [NewToBuilder.apply, run_bind_ok (RuleStep.run_get tree), builder_targets creates]
    dsimp only
    rw [run_bind_ok (RuleStep.run_requireChild named _), arguments, listed]
    dsimp only
    rw [List.forIn_nil, run_bind_ok (run_pure ..),
      run_bind_ok (RuleStep.run_lift instantiates), run_bind_ok (RuleStep.run_lift calls), first.size]
    rfl
  · have whole := first.append second
    rw [first.size] at whole
    exact whole

theorem wrap_plans (sends : tree.Sends call object method list argument value) :
    Run.feedWrap.plan tree call = some ⟨none, .values [value]⟩ := by
  obtain ⟨literal, spelled⟩ := sends.passes.value
  have kind : tree.kind? call = some .methodCall := kind?_of_shape? sends.call
  have named : tree.child? call .method = some method := by
    simp [child?, childrenIn, children, sends.call, Shape.children]
  have listed : tree.child? call .arguments = some list := by
    simp [child?, childrenIn, children, sends.call, Shape.children]
  have title : tree.callName? call = some "to" := by
    simp [callName?, kind, named, spelledName?, sends.method]
  have arguments : tree.arguments call = [argument] := by
    simp [Tree.arguments, kind, listed, sends.passes.arguments_in]
  have first : tree.positionalValue? call 0 = some value := by
    simp [positionalValue?, arguments, sends.passes.argument]
  have second : tree.positionalValue? call 1 = none := by
    simp [positionalValue?, arguments]
  have bare : Run.feedWrap.isWrapped tree value = false := by
    simp [WrapArguments.isWrapped, kind?, spelled, Shape.kind]
  have contents : Run.feedWrap.contents tree call = .values [value] := by
    simp [WrapArguments.contents, first, second, spelled, bare]
  have found : Run.feedWrap.methods.find? "to" = some "" := rfl
  simp [WrapArguments.plan, title, found, contents]

/-- The creation around the value, with the nodes it is made of in front. -/
theorem wrapped_gains (inside : tree.contains value) :
    ∃ after, (Run.feedWrap.wrapped [value]).run tree = (.ok ⟨tree.size + 3⟩, after)
      ∧ tree.Gains [.argument none false value, .argumentList [⟨tree.size⟩], .name "Address",
        .new ⟨tree.size + 2⟩ (some ⟨tree.size + 1⟩)] after := by
  obtain ⟨middle, passes, first⟩ := Edit.argumentsOf_gains inside
  have passed : ∀ given ∈ some (⟨tree.size + 1⟩ : NodeId), middle.contains given := by
    rintro _ ⟨⟩
    exact contains_of_shape? (first.new 1 _ rfl)
  obtain ⟨after, creates, second⟩ :=
    Edit.newInstance_gains middle Run.feedWrap.className (some ⟨tree.size + 1⟩) passed
  have gains := first.append second
  rw [first.size] at gains creates
  refine ⟨after, ?_, gains⟩
  rw [WrapArguments.wrapped, run_bind_ok passes]
  exact creates

/-- A list around a creation takes the place of the list that was passed. -/
theorem wraps_of_refill (sends : tree.Sends call object method list argument value) {middle : Tree}
    (gains : tree.Gains [.argument none false value, .argumentList [⟨tree.size⟩], .name "Address",
      .new ⟨tree.size + 2⟩ (some ⟨tree.size + 1⟩), .argument none false ⟨tree.size + 3⟩,
      .argumentList [⟨tree.size + 4⟩]] middle) :
    tree.Wraps call object method value (middle.refill ⟨call, .arguments⟩
      (.methodCall object method ⟨tree.size + 5⟩ false) [list] [⟨tree.size + 5⟩]).bump := by
  have called : tree.contains call := contains_of_shape? sends.call
  have still : ∀ {id shape}, id ≠ call → middle.shape? id = some shape →
      (middle.refill ⟨call, .arguments⟩ (.methodCall object method ⟨tree.size + 5⟩ false) [list]
        [⟨tree.size + 5⟩]).bump.shape? id = some shape := by
    intro id shape other found
    rw [shape?_bump, shape?_refill, if_neg other]
    exact found
  have fresh : ∀ index, (⟨tree.size + index⟩ : NodeId) ≠ call := by
    intro index same
    have bound := contains_iff.mp called
    rw [← same] at bound
    exact absurd bound (by simp)
  obtain ⟨literal, spelled⟩ := sends.passes.value
  have apart : value ≠ call := by
    rintro rfl
    cases spelled.symm.trans sends.call
  have refilled : (middle.refill ⟨call, .arguments⟩ (.methodCall object method ⟨tree.size + 5⟩ false)
      [list] [⟨tree.size + 5⟩]).bump.shape? call
        = some (.methodCall object method ⟨tree.size + 5⟩ false) := by
    rw [shape?_bump, shape?_refill, if_pos rfl, gains.old sends.call]
    rfl
  have size : (middle.refill ⟨call, .arguments⟩ (.methodCall object method ⟨tree.size + 5⟩ false)
      [list] [⟨tree.size + 5⟩]).bump.size = tree.size + 6 := by
    rw [(framed_bump _).size, (framed_refill ..).size]
    exact gains.size
  -- Nothing else is needed of the edited tree.
  generalize (middle.refill ⟨call, .arguments⟩ (.methodCall object method ⟨tree.size + 5⟩ false)
    [list] [⟨tree.size + 5⟩]).bump = after at still refilled size ⊢
  constructor
  case size => exact size
  case old => exact fun other found => still other (gains.old found)
  case call => exact refilled
  case list => exact still (fresh 5) (gains.new 5 _ rfl)
  case argument => exact still (fresh 4) (gains.new 4 _ rfl)
  case creates =>
    constructor
    · exact still (fresh 3) (gains.new 3 _ rfl)
    · exact still (fresh 2) (gains.new 2 _ rfl)
    · constructor
      · exact still (fresh 1) (gains.new 1 _ rfl)
      · exact still (fresh 0) (gains.new 0 _ rfl)
      · exact ⟨literal, still apart (gains.old spelled)⟩

theorem wrap_applies (sends : tree.Sends call object method list argument value) :
    ∃ after, (Run.feedWrap.apply call).run tree = (.ok .unchanged, after)
      ∧ tree.Wraps call object method value after := by
  have listed : tree.child? call .arguments = some list := by
    simp [child?, childrenIn, children, sends.call, Shape.children]
  have held : tree.contains list := contains_of_shape? sends.passes.list
  obtain ⟨literal, spelled⟩ := sends.passes.value
  obtain ⟨first, wraps, wrapped⟩ := wrapped_gains (contains_of_shape? spelled)
  have created : first.contains ⟨tree.size + 3⟩ := contains_of_shape? (wrapped.new 3 _ rfl)
  obtain ⟨middle, lists, listing⟩ := Edit.argumentsOf_gains created
  have gains := wrapped.append listing
  have size : first.size = tree.size + 4 := wrapped.size
  rw [size] at gains lists
  have found : middle.shape? call = some (.methodCall object method list false) :=
    gains.old sends.call
  have entering : middle.contains ⟨tree.size + 5⟩ := contains_of_shape? (gains.new 5 _ rfl)
  have differ : list ≠ ⟨tree.size + 5⟩ := by
    rintro rfl
    exact absurd (contains_iff.mp held) (by simp)
  have place : (Shape.methodCall object method list false).storage? (⟨call, .arguments⟩ : Link).slot
      = some (.one list) := rfl
  have swaps : (Storage.one list).replace? list ⟨tree.size + 5⟩ = some (.one ⟨tree.size + 5⟩) :=
    if_pos rfl
  have replaces := Edit.run_replaceAt found place differ swaps (gains.contains held) entering
  refine ⟨_, ?_, wraps_of_refill sends gains⟩
  rw [WrapArguments.apply, run_bind_ok (RuleStep.run_get tree), wrap_plans sends]
  dsimp only
  rw [WrapArguments.wrapValues, bind_assoc, run_bind_ok (RuleStep.run_requireChild listed _),
    bind_assoc, run_bind_ok (RuleStep.run_lift wraps), bind_assoc,
    run_bind_ok (RuleStep.run_lift lists)]
  exact run_bind_ok (RuleStep.run_lift replaces) _

end Tree

/-! ### What the rules say -/

namespace Pass

variable {tree : Tree} (context : Context) (link : Option Link) (anchor : Option Span)

theorem applyRule_done {rule : Rule} {node : NodeId} {verdict : Verdict} {edited : Tree}
    (accepted : rule.accepts tree.checkpoint node context = .ok true)
    (applies : (rule.apply node context).run tree.checkpoint = (.ok verdict, edited))
    (checked : check edited verdict node link = .ok ()) (log : Log) :
    ∃ entries, applyRule rule context node link anchor tree log
      = (verdict, edited.commit, entries) := by
  have attempts := run_attempt rule context node tree.checkpoint
  rw [accepted] at attempts
  dsimp only at attempts
  rw [applies] at attempts
  unfold applyRule
  rw [attempts]
  dsimp only
  rw [checked]
  exact ⟨_, rfl⟩

theorem applyRule_declines {rule : Rule} {node : NodeId}
    (declined : rule.accepts tree.checkpoint node context = .ok false) (log : Log) :
    applyRule rule context node link anchor tree log = (.unchanged, tree.commit, log) := by
  have attempts := run_attempt rule context node tree.checkpoint
  rw [declined] at attempts
  unfold applyRule
  rw [attempts]
  rfl

/-- Of lists, arguments and the like neither rule is told. -/
theorem offer_unasked {node : NodeId} {kind : Kind} (found : tree.kind? node = some kind)
    (other : kind ≠ .methodCall ∧ kind ≠ .new ∧ kind ≠ .parenthesized) (verdict : Verdict)
    (log : Log) :
    offer context link anchor Run.feedRules node verdict tree log = (verdict, tree, log) := by
  have unwrapped : ¬ (tree.kind? node).any Run.feedWrap.rule.kinds.contains := by
    simp [found, WrapArguments.rule, other]
  have unbuilt : ¬ (tree.kind? node).any Run.feedBuilder.rule.kinds.contains := by
    simp [found, NewToBuilder.rule, other]
  rw [Run.feedRules, offer, if_neg unwrapped, offer, if_neg unbuilt, offer]

theorem offer_idle {node : NodeId} (idle : tree.Idle node) (log : Log) :
    ∃ after, offer context link anchor Run.feedRules node .unchanged tree log
        = (.unchanged, after, log)
      ∧ after.commit = tree.commit := by
  rcases idle with ⟨shape, found, leaf⟩ | ⟨name, found, spelled⟩
  · have kind := Tree.kind?_of_shape? found
    refine ⟨tree, ?_, rfl⟩
    apply offer_unasked context link anchor kind
    cases shape <;> simp_all [Shape.kind, Shape.children]
  · have kind : tree.kind? node = some .new := Tree.kind?_of_shape? found
    have held : tree.child? node .className = some name := by
      simp [Tree.child?, Tree.childrenIn, Tree.children, found, Shape.children, Shape.tagged]
    have title : tree.instantiatedClass? node = some "Foo" := by
      simp [Tree.instantiatedClass?, held, Tree.spelledName?, spelled]
    have target : Run.feedBuilder.target? tree node = none := by
      simp only [NewToBuilder.target?, kind, NewToBuilder.creates, title]
      rfl
    have declined : Run.feedBuilder.rule.accepts tree.checkpoint node context = .ok false := by
      have answers : Run.feedBuilder.rule.accepts tree.checkpoint node context
          = .ok (Run.feedBuilder.target? tree node).isSome := rfl
      rw [answers, target]
      rfl
    have unwrapped : ¬ (tree.kind? node).any Run.feedWrap.rule.kinds.contains := by
      simp [kind, WrapArguments.rule]
    have offered : (tree.kind? node).any Run.feedBuilder.rule.kinds.contains := by
      simp [kind, NewToBuilder.rule]
    refine ⟨tree.commit, ?_, rfl⟩
    rw [Run.feedRules, offer, if_neg unwrapped, offer, if_pos offered,
      applyRule_declines context link anchor declined]
    rfl

section

variable {creation name list argument value call object method : NodeId}

/-- A call comes of a creation, -/
theorem offer_creation (creates : tree.Creates creation name list argument value) (log : Log) :
    ∃ after entries, offer context link anchor Run.feedRules creation .unchanged tree log
        = (.replaced ⟨tree.size + 3⟩, after, entries)
      ∧ tree.Gains (tree.takenUp list) after := by
  have kind : tree.kind? creation = some .new := Tree.kind?_of_shape? creates.creation
  have opened : tree.checkpoint.Creates creation name list argument value :=
    ⟨creates.creation, creates.name, creates.passes.list, creates.passes.argument,
      creates.passes.value⟩
  have accepted : Run.feedBuilder.rule.accepts tree.checkpoint creation context = .ok true := by
    have answers : Run.feedBuilder.rule.accepts tree.checkpoint creation context
        = .ok (Run.feedBuilder.target? tree.checkpoint creation).isSome := rfl
    rw [answers, Tree.builder_targets opened]
    rfl
  obtain ⟨edited, applies, gains⟩ := Tree.builder_applies opened
  have new : edited.contains ⟨tree.size + 3⟩ := Tree.contains_of_shape? (gains.new 3 _ rfl)
  obtain ⟨entries, done⟩ := applyRule_done context link anchor accepted applies (if_pos new) log
  have unwrapped : ¬ (tree.kind? creation).any Run.feedWrap.rule.kinds.contains := by
    simp [kind, WrapArguments.rule]
  have offered : (tree.kind? creation).any Run.feedBuilder.rule.kinds.contains := by
    simp [kind, NewToBuilder.rule]
  have differ : (⟨tree.checkpoint.size + 3⟩ : NodeId) ≠ creation := by
    rintro rfl
    exact absurd (Tree.contains_iff.mp (Tree.contains_of_shape? creates.creation)) (by
      simp [Tree.checkpoint, Tree.size])
  refine ⟨edited.commit, entries, ?_, gains.size, gains.old, gains.new⟩
  rw [Run.feedRules, offer, if_neg unwrapped, offer, if_pos offered, done]
  dsimp only
  rw [if_neg differ]
  rfl

/-- and the literal of a call is wrapped in a creation. -/
theorem offer_call (sends : tree.Sends call object method list argument value) (log : Log) :
    ∃ after entries, offer context link anchor Run.feedRules call .unchanged tree log
        = (.unchanged, after, entries)
      ∧ tree.Wraps call object method value after := by
  have kind : tree.kind? call = some .methodCall := Tree.kind?_of_shape? sends.call
  have opened : tree.checkpoint.Sends call object method list argument value :=
    ⟨sends.call, sends.object, sends.method, sends.passes.list, sends.passes.argument,
      sends.passes.value⟩
  have accepted : Run.feedWrap.rule.accepts tree.checkpoint call context = .ok true := by
    have answers : Run.feedWrap.rule.accepts tree.checkpoint call context
        = .ok (Run.feedWrap.plan tree.checkpoint call).isSome := rfl
    rw [answers, Tree.wrap_plans opened]
    rfl
  obtain ⟨edited, applies, wraps⟩ := Tree.wrap_applies opened
  obtain ⟨entries, done⟩ := applyRule_done context link anchor accepted applies rfl log
  have offered : (tree.kind? call).any Run.feedWrap.rule.kinds.contains := by
    simp [kind, WrapArguments.rule]
  have unbuilt : ¬ (edited.commit.kind? call).any Run.feedBuilder.rule.kinds.contains := by
    have still : edited.commit.kind? call = some .methodCall := Tree.kind?_of_shape? wraps.call
    simp [still, NewToBuilder.rule]
  refine ⟨edited.commit, entries, ?_, wraps.size, wraps.old, wraps.call, wraps.list, wraps.argument,
    wraps.creates.creation, wraps.creates.name, wraps.creates.passes.list,
    wraps.creates.passes.argument, wraps.creates.passes.value⟩
  rw [Run.feedRules, offer, if_pos offered, done]
  dsimp only
  rw [offer, if_neg unbuilt, offer]

end

end Pass

/-! ### Places of no interest -/

namespace Tree

variable {before after : Tree}

theorem shape?_of_commit (same : after.commit = before.commit) (id : NodeId) :
    after.shape? id = before.shape? id := by
  rw [shape?, node?, nodes_of_commit same, shape?, node?]

theorem Idle.child {tree : Tree} {id : NodeId} (idle : tree.Idle id) {child : Slot × NodeId}
    (held : child ∈ tree.children id) : tree.Idle child.2 := by
  rcases idle with ⟨shape, found, leaf⟩ | ⟨name, found, spelled⟩
  · rw [children_of_shape? found, leaf] at held
    cases held
  · rw [children_of_shape? found] at held
    cases List.mem_singleton.mp held
    exact Or.inl ⟨_, spelled, rfl⟩

theorem Idle.inside {tree : Tree} {id : NodeId} (idle : tree.Idle id) : tree.contains id := by
  rcases idle with ⟨_, found, _⟩ | ⟨_, found, _⟩
  · exact contains_of_shape? found
  · exact contains_of_shape? found

end Tree

namespace Walk

variable (context : Context)

def RunsOut {α : Type} (result : Except Stop α × Walk Log) : Prop :=
  result.1 = .error .exhausted

theorem RunsOut.bind {α β : Type} {step : Walking Log α} {walk : Walk Log}
    (out : RunsOut (step.run walk)) (next : α → Walking Log β) :
    RunsOut ((step >>= next).run walk) := by
  rw [run_bind]
  generalize step.run walk = result at out
  rcases result with ⟨stop | value, after⟩
  · cases out
    rfl
  · cases out

structure Calm (before after : Walk Log) : Prop where
  same : after.tree.commit = before.tree.commit
  marks : ∀ id, after.visited.contains id → before.visited.contains id ∨ before.tree.Idle id

theorem calm_refl (walk : Walk Log) : Calm walk walk :=
  ⟨rfl, fun _ => Or.inl⟩

theorem Calm.idle {before after : Walk Log} (calm : Calm before after) {id : NodeId} :
    after.tree.Idle id ↔ before.tree.Idle id := by
  simp only [Tree.Idle, Tree.shape?_of_commit calm.same]

theorem Calm.trans {before middle after : Walk Log} (first : Calm before middle)
    (second : Calm middle after) : Calm before after where
  same := second.same.trans first.same
  marks id marked := by
    rcases second.marks id marked with early | idle
    · exact first.marks id early
    · exact Or.inr (first.idle.mp idle)

theorem calm_mark (walk : Walk Log) {id : NodeId} (idle : walk.tree.Idle id) :
    Calm walk { walk with visited := walk.visited.insert id } where
  same := rfl
  marks other marked := by
    rw [NodeSet.contains_insert, Bool.or_eq_true, decide_eq_true_eq] at marked
    rcases marked with rfl | early
    · exact Or.inr idle
    · exact Or.inl early

def Rests (before : Walk Log) (result : Except Stop Unit × Walk Log) : Prop :=
  RunsOut result ∨ ∃ after, result = (.ok (), after) ∧ Calm before after

theorem Rests.bind {before : Walk Log} {step next : Walking Log Unit}
    (first : Rests before (step.run before))
    (second : ∀ middle, Calm before middle → Rests middle (next.run middle)) :
    Rests before ((step >>= fun _ => next).run before) := by
  rcases first with out | ⟨middle, ran, calm⟩
  · exact Or.inl (out.bind _)
  · rw [run_bind_ok ran]
    rcases second middle calm with out | ⟨after, ended, further⟩
    · exact Or.inl out
    · exact Or.inr ⟨after, ended, calm.trans further⟩

theorem Rests.calm {before middle : Walk Log} {result : Except Stop Unit × Walk Log}
    (rests : Rests middle result) (calm : Calm before middle) : Rests before result := by
  rcases rests with out | ⟨after, ended, further⟩
  · exact Or.inl out
  · exact Or.inr ⟨after, ended, calm.trans further⟩

theorem idle_visits (steps : Nat) :
    (∀ walk id link, walk.tree.Idle id →
        Rests walk ((visitNode (Pass.visitor Run.feedRules context) steps id link).run walk))
      ∧ ∀ walk id, walk.tree.Idle id →
        Rests walk ((descend (Pass.visitor Run.feedRules context) steps id).run walk) := by
  induction steps with
  | zero => exact ⟨fun _ _ _ _ => Or.inl rfl, fun _ _ _ => Or.inl rfl⟩
  | succ steps ih =>
      obtain ⟨visitIh, descendIh⟩ := ih
      constructor
      · intro walk id link idle
        obtain ⟨tree, answers, same⟩ := Pass.offer_idle context (walk.tree.parent? id)
          (walk.tree.anchor? id) idle walk.state
        have visits := Pass.run_visitor Run.feedRules context id walk
        rw [Pass.answerAt, answers] at visits
        have calm : Calm walk { walk with tree } := ⟨same, fun _ => Or.inl⟩
        rw [visit_unchanged visits]
        exact (descendIh _ id (calm.idle.mpr idle)).calm calm
      · intro walk id idle
        rw [descend, run_bind_ok (run_get walk)]
        cases next : walk.nextChild? id with
        | none => exact Or.inr ⟨walk, rfl, calm_refl walk⟩
        | some child =>
            have lower := idle.child (List.mem_of_find?_eq_some next)
            have unseen := List.find?_some next
            simp only [Bool.and_eq_true, Bool.not_eq_true'] at unseen
            have calm := calm_mark walk lower
            dsimp only
            rw [run_bind_ok (run_mark_fresh (by simp [unseen.1]))]
            have visits := visitIh _ child.2 (some ⟨id, child.1⟩) (calm.idle.mpr lower)
            refine (visits.bind ?_).calm calm
            intro middle further
            exact descendIh middle id ((calm.trans further).idle.mpr idle)

end Walk

/-! ### What leads to the rules -/

inductive Tree.Feeds (tree : Tree) (id : NodeId) : Prop where
  | creation {name list argument value : NodeId}
      (creates : tree.Creates id name list argument value)
  | call {object method list argument value : NodeId}
      (sends : tree.Sends id object method list argument value)

def Tree.Plain (tree : Tree) (id : NodeId) : Prop :=
  ∃ kind, tree.kind? id = some kind
    ∧ (kind = .expressionStatement ∨ kind = .argumentList ∨ kind = .argument)

namespace Tree

variable {before after : Tree} {id : NodeId}

theorem Feeds.busy (feeds : before.Feeds id) : ¬ before.Idle id := by
  cases feeds with
  | creation creates =>
      rintro (⟨shape, shaped, leaf⟩ | ⟨name, shaped, _⟩)
      · cases shaped.symm.trans creates.creation
        cases leaf
      · cases shaped.symm.trans creates.creation
  | call sends =>
      rintro (⟨shape, shaped, leaf⟩ | ⟨name, shaped, _⟩)
      · cases shaped.symm.trans sends.call
        cases leaf
      · cases shaped.symm.trans sends.call

theorem Feeds.of_commit (feeds : before.Feeds id) (same : after.commit = before.commit) :
    after.Feeds id := by
  have shapes := shape?_of_commit same
  have passes : ∀ {list argument value}, before.Passes list argument value →
      after.Passes list argument value := by
    intro list argument value given
    constructor
    · exact (shapes list).trans given.list
    · exact (shapes argument).trans given.argument
    · simpa only [shapes] using given.value
  cases feeds with
  | creation creates =>
      exact .creation ⟨(shapes _).trans creates.creation, (shapes _).trans creates.name,
        passes creates.passes⟩
  | call sends =>
      refine .call ⟨(shapes _).trans sends.call, ?_, (shapes _).trans sends.method,
        passes sends.passes⟩
      simpa only [Idle, shapes] using sends.object

end Tree

namespace Walk

/-- Of the children of a node one was not visited yet, and the others are idle. -/
structure Opens (walk : Walk Log) (id : NodeId) (slot : Slot) (target : NodeId) : Prop where
  held : (slot, target) ∈ walk.tree.children id
  others : ∀ child ∈ walk.tree.children id, child.2 = target ∨ walk.tree.Idle child.2
  unseen : ¬ walk.visited.contains target

/-- What is left to visit below a node comes, past idle nodes, to one that a rule takes up. -/
inductive Leads (walk : Walk Log) : NodeId → Prop where
  | passing {id target : NodeId} {slot : Slot} (opens : Opens walk id slot target)
      (plain : walk.tree.Plain target) (leads : Leads walk target) : Leads walk id
  | meeting {id target : NodeId} {slot : Slot} (opens : Opens walk id slot target)
      (feeds : walk.tree.Feeds target) : Leads walk id

theorem Opens.calm {before after : Walk Log} {id target : NodeId} {slot : Slot}
    (opens : Opens before id slot target) (busy : ¬ before.tree.Idle target)
    (calm : Calm before after) : Opens after id slot target := by
  have children := Tree.children_of_nodes (Tree.nodes_of_commit calm.same) id
  constructor
  · rw [children]
    exact opens.held
  · rw [children]
    intro child member
    exact (opens.others child member).imp_right calm.idle.mpr
  · intro seen
    rcases calm.marks target seen with early | idle
    · exact opens.unseen early
    · exact busy idle

theorem Leads.busy {walk : Walk Log} {id : NodeId} (leads : Leads walk id)
    (plain : walk.tree.Plain id) : ¬ walk.tree.Idle id := by
  obtain ⟨kind, found, plain⟩ := plain
  have opened : walk.tree.children id ≠ [] := by
    cases leads with
    | passing opens => exact List.ne_nil_of_mem opens.held
    | meeting opens => exact List.ne_nil_of_mem opens.held
  rintro (⟨shape, shaped, leaf⟩ | ⟨name, shaped, _⟩)
  · exact opened ((Tree.children_of_shape? shaped).trans leaf)
  · cases (Tree.kind?_of_shape? shaped).symm.trans found
    simp [Shape.kind] at plain

theorem Leads.calm {before after : Walk Log} {id : NodeId} (leads : Leads before id)
    (calm : Calm before after) : Leads after id := by
  induction leads with
  | passing opens plain leads ih =>
      refine .passing (opens.calm (leads.busy plain) calm) ?_ ih
      simpa only [Tree.Plain, Tree.kind?, Tree.shape?_of_commit calm.same] using plain
  | meeting opens feeds =>
      exact .meeting (opens.calm feeds.busy calm) (feeds.of_commit calm.same)

/-- Marking a node does not hide what is below it. -/
theorem Leads.marked {walk : Walk Log} {top id : NodeId} (leads : Leads walk id)
    (tidy : walk.tree.Tidy top) (below : walk.tree.Below top id) :
    Leads { walk with visited := walk.visited.insert top } id := by
  have opened : ∀ {id target slot}, Opens walk id slot target → walk.tree.Below top id →
      Opens { walk with visited := walk.visited.insert top } id slot target := by
    intro id target slot opens reached
    refine ⟨opens.held, opens.others, ?_⟩
    have apart : target ≠ top := tidy.topless reached opens.held
    simpa [apart] using opens.unseen
  induction leads with
  | passing opens plain _ ih =>
      exact .passing (opened opens below) plain (ih (below.child opens.held))
  | meeting opens feeds => exact .meeting (opened opens below) feeds

/-- A call whose literal was just wrapped leads to the creation around it. -/
theorem leads_of_wraps {before : Tree} {walk : Walk Log} {call object method value : NodeId}
    (wraps : before.Wraps call object method value walk.tree) (object_idle : walk.tree.Idle object)
    (method_idle : walk.tree.Idle method)
    (unseen : ∀ index, ¬ walk.visited.contains ⟨before.size + index⟩) : Leads walk call := by
  have ofCall := Tree.children_of_shape? wraps.call
  have ofList := Tree.children_of_shape? wraps.list
  have ofArgument := Tree.children_of_shape? wraps.argument
  have valued : Opens walk ⟨before.size + 4⟩ .value ⟨before.size + 3⟩ :=
    ⟨by simp [ofArgument, Shape.children], by simp [ofArgument, Shape.children], unseen 3⟩
  have passed : Opens walk ⟨before.size + 5⟩ .argument ⟨before.size + 4⟩ :=
    ⟨by simp [ofList, Shape.children, Shape.tagged], by simp [ofList, Shape.children, Shape.tagged],
      unseen 4⟩
  have listed : Opens walk call .arguments ⟨before.size + 5⟩ :=
    ⟨by simp [ofCall, Shape.children], by simp [ofCall, Shape.children, object_idle, method_idle],
      unseen 5⟩
  have argument : Leads walk ⟨before.size + 4⟩ := .meeting valued (.creation wraps.creates)
  have list : Leads walk ⟨before.size + 5⟩ :=
    .passing passed ⟨_, Tree.kind?_of_shape? wraps.argument, by simp [Shape.kind]⟩ argument
  exact .passing listed ⟨_, Tree.kind?_of_shape? wraps.list, by simp [Shape.kind]⟩ list

end Walk

namespace Tree

variable {before after : Tree} {call object method list argument value : NodeId}

theorem Wraps.idle (wraps : before.Wraps call object method value after)
    (sends : before.Sends call object method list argument value) {id : NodeId}
    (idle : before.Idle id) : after.Idle id := by
  have still : ∀ {other shape}, before.shape? other = some shape → shape.kind ≠ .methodCall →
      after.shape? other = some shape := by
    intro other shape found differ
    refine wraps.old ?_ found
    rintro rfl
    rw [sends.call] at found
    cases found
    exact differ rfl
  rcases idle with ⟨shape, found, leaf⟩ | ⟨name, found, spelled⟩
  · refine Or.inl ⟨shape, still found ?_, leaf⟩
    intro kind
    cases shape <;> simp_all [Shape.kind, Shape.children]
  · exact Or.inr ⟨name, still found (by rintro ⟨⟩), still spelled (by rintro ⟨⟩)⟩

/-- What a creation passes stands below it. -/
theorem Creates.below {creation name : NodeId}
    (creates : before.Creates creation name list argument value) :
    before.Below creation list ∧ before.Below creation argument ∧ before.Below creation value := by
  have listed : before.Below creation list := by
    apply Below.child .self
    rw [children_of_shape? creates.creation]
    exact List.mem_cons_of_mem _ List.mem_cons_self
  have passed : before.Below list argument := by
    apply Below.child .self
    rw [children_of_shape? creates.passes.list]
    exact List.mem_cons_self
  have valued : before.Below argument value := by
    apply Below.child .self
    rw [children_of_shape? creates.passes.argument]
    exact List.mem_cons_self
  exact ⟨listed, listed.trans passed, listed.trans (passed.trans valued)⟩

/-- The call made of a creation passes what the creation did, wherever no other node than a place above
them is edited. -/
theorem Creates.sends {creation name parent : NodeId} {middle : Tree}
    (creates : before.Creates creation name list argument value)
    (gains : before.Gains (before.takenUp list) middle)
    (still : ∀ {id shape}, id ≠ parent → middle.shape? id = some shape → after.shape? id = some shape)
    (inside : before.contains parent) (lower : ∀ {id}, before.Below creation id → id ≠ parent) :
    after.Sends ⟨before.size + 3⟩ ⟨before.size + 1⟩ ⟨before.size + 2⟩ list argument value := by
  have fresh : ∀ index, (⟨before.size + index⟩ : NodeId) ≠ parent := by
    rintro index rfl
    exact absurd (contains_iff.mp inside) (by simp)
  obtain ⟨listed, passed, valued⟩ := creates.below
  obtain ⟨literal, spelled⟩ := creates.passes.value
  constructor
  · exact still (fresh 3) (gains.new 3 _ rfl)
  · exact Or.inr ⟨_, still (fresh 1) (gains.new 1 _ rfl), still (fresh 0) (gains.new 0 _ rfl)⟩
  · exact still (fresh 2) (gains.new 2 _ rfl)
  · constructor
    · exact still (lower listed) (gains.old creates.passes.list)
    · exact still (lower passed) (gains.old creates.passes.argument)
    · exact ⟨literal, still (lower valued) (gains.old spelled)⟩

end Tree

namespace Walk

variable (context : Context) {walk : Walk Log}

def Marked (walk : Walk Log) : Prop :=
  ∀ id, walk.visited.contains id → walk.tree.contains id

/-- A call settles at once, and leads to the creation its literal was put into. -/
theorem settle_call {call object method list argument value : NodeId} (marked : Marked walk)
    (sends : walk.tree.Sends call object method list argument value) (link : Option Link)
    (left : Nat) :
    ∃ after, (settle (Pass.visitor Run.feedRules context) link (left + 1) call).run walk
        = (.ok (.descend call), after)
      ∧ Marked after ∧ Leads after call := by
  obtain ⟨tree, entries, answers, wraps⟩ := Pass.offer_call context (walk.tree.parent? call)
    (walk.tree.anchor? call) sends walk.state
  have visits := Pass.run_visitor Run.feedRules context call walk
  rw [Pass.answerAt, answers] at visits
  have fresh : ∀ index, ¬ walk.visited.contains ⟨walk.tree.size + index⟩ := by
    intro index seen
    have inside := Tree.contains_iff.mp (marked _ seen)
    dsimp only at inside
    omega
  have method_idle : walk.tree.Idle method := Or.inl ⟨_, sends.method, rfl⟩
  have grows : walk.tree.size ≤ tree.size := by
    rw [wraps.size]
    exact Nat.le_add_right _ _
  refine ⟨{ walk with tree, state := entries }, settle_unchanged visits link left, ?_, ?_⟩
  · exact fun id seen => Tree.grown grows (marked id seen)
  · exact leads_of_wraps wraps (wraps.idle sends sends.object) (wraps.idle sends method_idle) fresh

/-- What comes of a creation calls with the same literal. -/
theorem settle_creation {parent creation name list argument value : NodeId} {slot : Slot}
    (ready : Ready walk parent) (marked : Marked walk)
    (held : (slot, creation) ∈ walk.tree.children parent)
    (creates : walk.tree.Creates creation name list argument value) (left : Nat) :
    ∃ middle call object method,
      (settle (Pass.visitor Run.feedRules context) (some ⟨parent, slot⟩) (left + 1) creation).run walk
        = (settle (Pass.visitor Run.feedRules context) (some ⟨parent, slot⟩) left call).run middle
      ∧ Marked middle ∧ middle.tree.Sends call object method list argument value := by
  obtain ⟨tree, entries, answers, gains⟩ := Pass.offer_creation context
    (walk.tree.parent? creation) (walk.tree.anchor? creation) creates walk.state
  have visits := Pass.run_visitor Run.feedRules context creation walk
  rw [Pass.answerAt, answers] at visits
  have present : walk.tree.contains creation := Tree.contains_of_shape? creates.creation
  have new : tree.contains ⟨walk.tree.size + 3⟩ := Tree.contains_of_shape? (gains.new 3 _ rfl)
  have differ : creation ≠ ⟨walk.tree.size + 3⟩ := by
    rintro rfl
    exact absurd (Tree.contains_iff.mp present) (by simp)
  obtain ⟨shape, found, member⟩ := Tree.shape?_of_child held
  obtain ⟨storage, place, among⟩ := Shape.storage?_of_child member
  have holds : shape.storage? (⟨parent, slot⟩ : Link).slot = some storage := place
  obtain ⟨filled, replaced⟩ := Storage.replace?_of_mem among ⟨walk.tree.size + 3⟩
  have replaces := Edit.run_replaceAt (gains.old found) holds differ replaced
    (gains.contains present) new
  -- The parent is neither new nor below the creation, so that all of the call is there still.
  have lower : ∀ {id}, walk.tree.Below creation id → id ≠ parent := by
    rintro id below rfl
    exact ready.tidy.not_below_child .self held below
  have still : ∀ {id shape'}, id ≠ parent → tree.shape? id = some shape' →
      (tree.refill ⟨parent, slot⟩ (shape.store slot filled) [creation]
        [⟨walk.tree.size + 3⟩]).bump.shape? id = some shape' := by
    intro id shape' other read
    rw [Tree.shape?_bump, Tree.shape?_refill, if_neg other]
    exact read
  let after := (tree.refill ⟨parent, slot⟩ (shape.store slot filled) [creation]
    [⟨walk.tree.size + 3⟩]).bump
  have unseen : ¬ walk.visited.contains ⟨walk.tree.size + 3⟩ := by
    intro seen
    exact absurd (Tree.contains_iff.mp (marked _ seen)) (by simp)
  refine ⟨{ walk with
    tree := after, state := entries, changes := walk.changes + 1,
    visited := walk.visited.insert ⟨walk.tree.size + 3⟩ }, ⟨walk.tree.size + 3⟩,
    ⟨walk.tree.size + 1⟩, ⟨walk.tree.size + 2⟩, ?_, ?_, ?_⟩
  · rw [settle_replaced visits (Ne.symm differ) replaces left, if_neg unseen]
  · intro id seen
    have size : after.size = tree.size := by
      rw [(Tree.framed_bump _).size, (Tree.framed_refill ..).size]
    rw [NodeSet.contains_insert, Bool.or_eq_true, decide_eq_true_eq] at seen
    apply Tree.grown size.ge
    rcases seen with rfl | early
    · exact new
    · exact gains.contains (marked id early)
  · exact creates.sends gains still ready.inside lower

/-- The walk is at a node below which the rules feed each other. -/
structure Feeding (walk : Walk Log) (id : NodeId) : Prop where
  ready : Ready walk id
  marked : Marked walk
  leads : Leads walk id

/-- Where a rule takes up a child, the walk goes on at a call that leads on. -/
theorem settle_feeding {parent target : NodeId} {slot : Slot} (ready : Ready walk parent)
    (marked : Marked walk) (held : (slot, target) ∈ walk.tree.children parent)
    (feeds : walk.tree.Feeds target) :
    ∃ call after, (settle (Pass.visitor Run.feedRules context) (some ⟨parent, slot⟩) cascadeLimit
        target).run walk = (.ok (.descend call), after)
      ∧ Feeding after call := by
  have safe : ∀ rule ∈ Run.feedRules, rule.Safe :=
    Catalog.safe_of_build Run.feedRules_built (by decide +kernel)
  obtain ⟨settled, ended, settles, smooth, rest⟩ :=
    settle_goes context safe ready held cascadeLimit
  have reaches : ∃ call after, (settle (Pass.visitor Run.feedRules context) (some ⟨parent, slot⟩)
      cascadeLimit target).run walk = (.ok (.descend call), after)
        ∧ Marked after ∧ Leads after call := by
    cases feeds with
    | creation creates =>
        obtain ⟨middle, call, object, method, becomes, early, sends⟩ :=
          settle_creation context ready marked held creates 31
        obtain ⟨after, ends, reached, leads⟩ :=
          settle_call context early sends (some ⟨parent, slot⟩) 30
        exact ⟨call, after, becomes.trans ends, reached, leads⟩
    | call sends =>
        obtain ⟨after, ends, reached, leads⟩ :=
          settle_call context marked sends (some ⟨parent, slot⟩) 31
        exact ⟨target, after, ends, reached, leads⟩
  obtain ⟨call, after, ends, reached, leads⟩ := reaches
  cases settles.symm.trans ends
  rcases rest with stops | ⟨node, stays, holds⟩
  · cases stops
  · cases stays
    exact ⟨call, ended, ends, (ready.after smooth).sub (.child .self holds), reached, leads⟩

/-! ### No steps suffice -/

theorem Feeding.calm {before after : Walk Log} {id : NodeId} (feeding : Feeding before id)
    (calm : Calm before after) : Feeding after id where
  ready := by
    have nodes := Tree.nodes_of_commit calm.same
    constructor
    · exact feeding.ready.proper.of_commit calm.same
    · rw [Tree.contains_iff, Tree.size, nodes]
      exact Tree.contains_iff.mp feeding.ready.inside
    · exact feeding.ready.tidy.of_nodes nodes
  marked id seen := by
    have size : after.tree.size = before.tree.size := by
      rw [Tree.size, Tree.nodes_of_commit calm.same, Tree.size]
    apply Tree.grown size.ge
    rcases calm.marks id seen with early | idle
    · exact feeding.marked id early
    · exact idle.inside
  leads := feeding.leads.calm calm

theorem Leads.nextChild? {id : NodeId} (leads : Leads walk id) (tidy : walk.tree.Tidy id) :
    ∃ child, walk.nextChild? id = some child := by
  have unvisited : ∃ child ∈ walk.tree.children id, ¬ walk.visited.contains child.2 := by
    cases leads with
    | passing opens => exact ⟨_, opens.held, opens.unseen⟩
    | meeting opens => exact ⟨_, opens.held, opens.unseen⟩
  obtain ⟨child, held, unseen⟩ := unvisited
  have named := tidy.named .self held
  cases found : walk.nextChild? id with
  | some child => exact ⟨child, rfl⟩
  | none =>
      have skipped := List.find?_eq_none.mp found child held
      simp [unseen, named] at skipped

/-- A visit to a child that is not idle goes on at a node below which the rules feed each other. -/
theorem visit_feeding {id : NodeId} (feeding : Feeding walk id) {child : Slot × NodeId}
    (held : child ∈ walk.tree.children id) (busy : ¬ walk.tree.Idle child.2) (steps : Nat) :
    ∃ lower after, (visitNode (Pass.visitor Run.feedRules context) (steps + 1) child.2
        (some ⟨id, child.1⟩)).run { walk with visited := walk.visited.insert child.2 }
          = (descend (Pass.visitor Run.feedRules context) steps lower).run after
      ∧ Feeding after lower := by
  have inside : walk.tree.contains child.2 := feeding.ready.tidy.contains_child .self held
  have marked : Marked { walk with visited := walk.visited.insert child.2 } := by
    intro other seen
    rw [NodeSet.contains_insert, Bool.or_eq_true, decide_eq_true_eq] at seen
    rcases seen with rfl | early
    · exact inside
    · exact feeding.marked other early
  have ready : Ready { walk with visited := walk.visited.insert child.2 } id :=
    ⟨feeding.ready.proper, feeding.ready.inside, feeding.ready.tidy⟩
  have below : walk.tree.Below id child.2 := .child .self held
  cases feeding.leads with
  | passing opens plain leads =>
      -- No rule is offered this node, and the way to the busy one goes on below it.
      have same := (opens.others child held).resolve_right busy
      rw [← same] at plain leads
      obtain ⟨kind, found, plain⟩ := plain
      have other : kind ≠ .methodCall ∧ kind ≠ .new ∧ kind ≠ .parenthesized := by
        rcases plain with rfl | rfl | rfl <;> decide
      have visits := Pass.run_visitor Run.feedRules context child.2
        { walk with visited := walk.visited.insert child.2 }
      rw [Pass.answerAt, Pass.offer_unasked context _ _ found other] at visits
      exact ⟨child.2, _, visit_unchanged visits _ steps, ready.sub below, marked,
        leads.marked (feeding.ready.sub below).tidy .self⟩
  | meeting opens feeds =>
      -- A rule takes up this node and leaves one behind that another rule takes up.
      have same := (opens.others child held).resolve_right busy
      rw [← same] at feeds
      obtain ⟨call, after, settles, further⟩ := settle_feeding context ready marked held feeds
      refine ⟨call, after, ?_, further⟩
      rw [visitNode, run_bind_ok settles]

/-- However many steps are left, the rules use them up. -/
theorem feeding_exhausts (steps : Nat) {id : NodeId} (feeding : Feeding walk id) :
    RunsOut ((descend (Pass.visitor Run.feedRules context) steps id).run walk) := by
  -- A visit goes on two steps later, the children after an idle one a step later.
  induction steps using Nat.strongRecOn generalizing walk id with
  | ind steps ih =>
    cases steps with
    | zero => rfl
    | succ steps =>
        obtain ⟨child, next⟩ := feeding.leads.nextChild? feeding.ready.tidy
        have held : child ∈ walk.tree.children id := List.mem_of_find?_eq_some next
        have unseen := List.find?_some next
        simp only [Bool.and_eq_true, Bool.not_eq_true'] at unseen
        rw [descend, run_bind_ok (run_get walk), next]
        dsimp only
        rw [run_bind_ok (run_mark_fresh (by simp [unseen.1]))]
        by_cases idle : walk.tree.Idle child.2
        · have calm := calm_mark walk idle
          rcases (idle_visits context steps).1 _ child.2 (some ⟨id, child.1⟩) (calm.idle.mpr idle)
            with out | ⟨after, visits, further⟩
          · exact out.bind _
          · rw [run_bind_ok visits]
            exact ih steps (Nat.lt_succ_self steps) (feeding.calm (calm.trans further))
        · apply RunsOut.bind
          cases steps with
          | zero => rfl
          | succ steps =>
              obtain ⟨lower, after, visits, further⟩ :=
                visit_feeding context feeding held idle steps
              rw [visits]
              exact ih steps (by omega) further

end Walk

/-! ### A run without end -/

namespace Run

section

variable {tree : Tree} (context : Context)

/-- A program that calls in a statement is walked over without end. -/
theorem walk_feeding (fit : Fit tree) (leads : ∀ walk : Walk Log, walk.tree = tree →
      (∀ id, walk.visited.contains id → id = tree.root) → walk.Leads tree.root)
    (steps : Nat) (log : Log) :
    (Walk.run (Pass.visitor feedRules context) steps tree log tree.root).1 = .error .exhausted := by
  obtain ⟨node, present⟩ := Tree.node?_of_contains fit.inside
  let start : Walk Log := { tree, state := log, visited := NodeSet.insert {} tree.root }
  have unseen : ∀ id, start.visited.contains id → id = tree.root := by
    intro id seen
    simpa [start] using seen
  have marks : (Walk.mark tree.root).run { tree, state := log } = (.ok true, start) := by
    rw [Walk.run_mark]
    rfl
  rw [Walk.run, Walk.subtree, run_bind_ok (run_get _)]
  dsimp only
  rw [present]
  dsimp only
  rw [run_bind_ok marks]
  cases steps with
  | zero => rfl
  | succ steps =>
      have visits := Pass.run_visitor feedRules context tree.root start
      rw [Pass.answerAt, Pass.offer_unasked context _ _ fit.rooted (by decide)] at visits
      have feeding : start.Feeding tree.root := by
        constructor
        · exact ⟨fit.proper, fit.inside, fit.tidy⟩
        · intro id seen
          rw [unseen id seen]
          exact fit.inside
        · exact leads start rfl unseen
      rw [Walk.visit_unchanged visits]
      exact Walk.feeding_exhausts context steps feeding

end

def feedSource : String :=
  "<?php $m->to('a');"

def feedProgram : List Php.Statement :=
  (Php.program feedSource).toOption.getD []

def feedTree : Tree :=
  Tree.ofProgram feedSource feedProgram

theorem feedSource_parses : Tree.parse feedSource = .ok feedTree := by
  have answers : (Php.program feedSource).toOption.isSome := by decide +kernel
  unfold Tree.parse feedTree feedProgram
  cases read : Php.program feedSource with
  | error error =>
      rw [read] at answers
      cases answers
  | ok program => rfl

theorem feedTree_fit : Fit feedTree := by
  have laid : (∀ place ∈ Php.statementPlaces feedProgram, Text.Laid feedSource place.1 place.2)
      ∧ Text.Laid feedSource ⟨0, feedSource.utf8ByteSize⟩ (feedProgram.map Php.Statement.span) := by
    decide +kernel
  exact fit_ofProgram laid.1 laid.2

theorem feedTree_shapes : feedTree.root = ⟨9⟩
    ∧ feedTree.shape? ⟨9⟩ = some (.program [⟨1⟩, ⟨8⟩])
    ∧ feedTree.shape? ⟨1⟩ = some (.verbatim "statement" [])
    ∧ feedTree.shape? ⟨8⟩ = some (.expressionStatement ⟨7⟩)
    ∧ feedTree.shape? ⟨7⟩ = some (.methodCall ⟨2⟩ ⟨3⟩ ⟨6⟩ false)
    ∧ feedTree.shape? ⟨2⟩ = some (.variable "$m")
    ∧ feedTree.shape? ⟨3⟩ = some (.name "to")
    ∧ feedTree.shape? ⟨6⟩ = some (.argumentList [⟨5⟩])
    ∧ feedTree.shape? ⟨5⟩ = some (.argument none false ⟨4⟩)
    ∧ feedTree.shape? ⟨4⟩ = some (.literal ⟨.string, "'a'"⟩) := by
  decide +kernel

/-- The program leads through its statement to the call. -/
theorem feedTree_leads (walk : Walk Log) (same : walk.tree = feedTree)
    (unseen : ∀ id, walk.visited.contains id → id = feedTree.root) : walk.Leads feedTree.root := by
  obtain ⟨root, program, opening, statement, call, object, method, list, argument, value⟩ :=
    feedTree_shapes
  rw [root] at unseen ⊢
  rw [← same] at program opening statement call object method list argument value
  have fresh : ∀ {id : NodeId}, id ≠ ⟨9⟩ → ¬ walk.visited.contains id :=
    fun other seen => other (unseen _ seen)
  have ofProgram := Tree.children_of_shape? program
  have ofStatement := Tree.children_of_shape? statement
  have idle : walk.tree.Idle ⟨1⟩ := Or.inl ⟨_, opening, rfl⟩
  have sends : walk.tree.Sends ⟨7⟩ ⟨2⟩ ⟨3⟩ ⟨6⟩ ⟨5⟩ ⟨4⟩ :=
    ⟨call, Or.inl ⟨_, object, rfl⟩, method, list, argument, _, value⟩
  have inner : walk.Opens ⟨8⟩ .expression ⟨7⟩ :=
    ⟨by simp [ofStatement, Shape.children], by simp [ofStatement, Shape.children],
      fresh (by decide)⟩
  have outer : walk.Opens ⟨9⟩ .statement ⟨8⟩ :=
    ⟨by simp [ofProgram, Shape.children, Shape.tagged],
      by simp [ofProgram, Shape.children, Shape.tagged, idle], fresh (by decide)⟩
  have below : walk.Leads ⟨8⟩ := .meeting inner (.call sends)
  exact .passing outer ⟨_, Tree.kind?_of_shape? statement, Or.inl rfl⟩ below

theorem run_of_walk {rules : List Rule} {options : RunOptions} {context : Context} {tree : Tree}
    (walks : (Walk.run (Pass.visitor rules context) options.steps tree {} tree.root).1
      = .error .exhausted) :
    (run rules options context tree).1 = .error .exhausted := by
  obtain ⟨left, count⟩ : ∃ left, max options.maxPasses 1 = left + 1 :=
    ⟨max options.maxPasses 1 - 1, by omega⟩
  rw [run, count, passes]
  generalize Walk.run (Pass.visitor rules context) options.steps tree ({} : RunOutcome).log tree.root
    = result at walks ⊢
  rcases result with ⟨ended, walk⟩
  cases walks
  rfl

end Run

namespace SourceUnit

theorem process_exhausted {unit : SourceUnit} {rules : List Rule} {options : EngineOptions}
    {symbols : Symbols} {tree : Tree} (parses : Tree.parse unit.source = .ok tree)
    (runs : (Run.run rules options.run { symbols, unitId := unit.id } tree).1 = .error .exhausted) :
    process unit rules options symbols = .error .exhausted := by
  unfold process
  rw [parses]
  dsimp only
  generalize Run.run rules options.run { symbols, unitId := unit.id } tree = result at runs
  rcases result with ⟨ended, after⟩
  cases runs
  rfl

/-- The first pass is never over: with these two rules of the catalog no number of steps is enough for
a walk over `$m->to('a')`, however many passes are asked for. -/
theorem feeding_exhausted : Catalog.build Run.feedSpecs = .ok Run.feedRules
    ∧ Tree.parse Run.feedSource = .ok Run.feedTree
    ∧ ∀ id options symbols,
      process ⟨id, Run.feedSource⟩ Run.feedRules options symbols = .error .exhausted := by
  refine ⟨Run.feedRules_built, Run.feedSource_parses, ?_⟩
  intro id options symbols
  let unit : SourceUnit := ⟨id, Run.feedSource⟩
  have parses : Tree.parse unit.source = .ok Run.feedTree := Run.feedSource_parses
  have walks := Run.walk_feeding { symbols, unitId := unit.id } Run.feedTree_fit Run.feedTree_leads
    options.run.steps {}
  exact process_exhausted parses (Run.run_of_walk walks)

end SourceUnit

end Codemod
