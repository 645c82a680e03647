import Codemod.Proofs.Catalog.Flattening
import Codemod.Proofs.Tree.Parsed
import Codemod.Proofs.Tree.Spelling

/-!
Which calls the rule that flattens chains takes its values from. A chain leads from a call down the
objects that methods are called on. The rule looks for its sources everywhere below the chain, in the
arguments of its calls as well, so that it keeps to the chain only where all sources stand on it
(`flattening_found`).
-/

namespace Codemod

open Step

namespace Tree

variable {tree : Tree} {top id : NodeId}

/-- The nodes that lead down from a node by the objects that methods are called on. The last of them
is not a call of a method on an object. -/
inductive Spine (tree : Tree) (top : NodeId) : NodeId → Prop where
  | self : Spine tree top top
  | object {call object : NodeId} (above : Spine tree top call)
      (kind : tree.kind? call = some .methodCall) (held : tree.child? call .object = some object) :
      Spine tree top object

theorem Spine.under (spine : tree.Spine top id) : tree.Below top id := by
  induction spine with
  | self => exact .self
  | object _ _ held above => exact .child above (child_of_child? held)

theorem Spine.first (spine : tree.Spine top id) :
    id = top ∨ ∃ object, tree.child? top .object = some object ∧ tree.Spine object id := by
  induction spine with
  | self => exact Or.inl rfl
  | object _ kind held ih =>
      rcases ih with rfl | ⟨object, next, rest⟩
      · exact Or.inr ⟨_, held, .self⟩
      · exact Or.inr ⟨object, next, .object rest kind held⟩

/-- Of two nodes on a spine one is on the spine of the other. -/
theorem Spine.total {other : NodeId} (spine : tree.Spine top id) (also : tree.Spine top other) :
    tree.Spine id other ∨ tree.Spine other id := by
  induction spine with
  | self => exact Or.inl also
  | object _ kind held ih =>
      rcases ih with further | back
      · rcases further.first with rfl | ⟨object, next, rest⟩
        · exact Or.inr (.object .self kind held)
        · cases held.symm.trans next
          exact Or.inl rest
      · exact Or.inr (.object back kind held)

/-- What a call passes has nothing in common with the calls further down its spine. -/
theorem Tidy.spine_apart {call inner value : NodeId} {position : Nat} (tidy : tree.Tidy call)
    (spine : tree.Spine call inner) (differ : inner ≠ call)
    (passed : tree.positionalValue? call position = some value) (below : tree.Below inner id) :
    ¬ tree.Below value id := by
  intro also
  obtain ⟨list, argument, held, listed, shaped⟩ := positionalValue?_eq_some passed
  have among : (.argument, argument) ∈ tree.children list :=
    mem_childrenIn.mp (List.mem_of_getElem? listed)
  have holds : (.value, value) ∈ tree.children argument := by
    rw [children_of_shape? shaped]
    exact List.mem_cons_self
  have slots : tree.listSlot call ≠ .object := by
    unfold listSlot
    split <;> decide
  rcases spine.first with same | ⟨object, next, rest⟩
  · exact differ same
  · exact tidy.name_apart held next slots (.trans (.child (.child .self among) holds) also)
      (rest.under.trans below)

end Tree

namespace ExtractChainArguments

variable {config : ExtractChainArguments} {tree after : Tree} {call chain value : NodeId}
variable {position : Nat}

def Straight (config : ExtractChainArguments) (tree : Tree) (chain : NodeId) : Prop :=
  ∀ source ∈ tree.descendants chain, (config.sourceIndex? tree source).isSome →
    tree.Spine chain source

section

variable {values : List (Option NodeId)} (repassed : Repassed tree call values after)
variable (kind : tree.kind? call = some .methodCall ∨ tree.kind? call = some .staticCall)

include repassed kind

/-- The arguments of a call that was flattened are the new ones, in their order. -/
theorem Repassed.arguments :
    ∃ filled, List.Forall₂ (fun value id => Stands tree value id after) values filled
      ∧ List.Forall₂ (fun value argument => Carries tree value argument after) filled
        (after.arguments call) := by
  obtain ⟨list, arguments, filled, held, _, shaped, carried, stands⟩ := repassed.listed
  have named : after.arguments call = arguments := by
    unfold Tree.arguments
    rw [repassed.kind]
    rcases kind with kind | kind <;>
      simp [kind, held, Tree.childrenIn, Tree.children_of_shape? shaped, Shape.children,
        Shape.tagged, List.filter_map, Function.comp_def]
  exact ⟨filled, stands, named ▸ carried⟩

/-- Each of them is passed by position. -/
theorem Repassed.passes {given : Option NodeId} (listed : values[position]? = some given) :
    ∃ value, Stands tree given value after ∧ after.positionalValue? call position = some value := by
  obtain ⟨filled, stands, carried⟩ := repassed.arguments kind
  obtain ⟨value, filling, stands⟩ := stands.getElem?_left listed
  obtain ⟨argument, entry, _, carries⟩ := carried.getElem?_left filling
  refine ⟨value, stands, ?_⟩
  rw [Tree.positionalValue?, entry, Option.bind_eq_bind, Option.bind_some, carries]

/-- There are as many as values and gaps are passed on. -/
theorem Repassed.length : (after.arguments call).length = values.length := by
  obtain ⟨filled, stands, carried⟩ := repassed.arguments kind
  exact carried.length_eq.symm.trans stands.length_eq.symm

end

/-- Each argument of a call that was flattened is what a source call of its position passes first, or
a new `null`. -/
theorem supplies_of_repassed (repassed : Repassed tree call (config.passing tree call) after)
    (found : config.chain? tree call = some chain) (short : position < (after.arguments call).length) :
    ∃ value, after.positionalValue? call position = some value
      ∧ ((∃ source, config.Supplies tree chain position source value)
        ∨ ¬ tree.contains value ∧ after.shape? value = some (.raw "null")) := by
  have kind := (Tree.name_of_accepts (chain?_eq_some found).1).1
  rw [repassed.length kind] at short
  have listed := List.getElem?_eq_getElem short
  obtain ⟨value, stands, passes⟩ := repassed.passes kind listed
  refine ⟨value, passes, ?_⟩
  cases given : (config.passing tree call)[position] with
  | none =>
      rw [given] at stands
      exact Or.inr stands
  | some taken =>
      rw [given] at stands listed
      obtain rfl : value = taken := stands
      obtain ⟨other, source, also, supplies⟩ := supplies_of_passing listed
      cases found.symm.trans also
      exact Or.inl ⟨source, supplies⟩

/-- What supplies a value of a straight chain stands on its spine. -/
theorem Straight.spine (straight : config.Straight tree chain) {source : NodeId}
    (supplies : config.Supplies tree chain position source value) : tree.Spine chain source :=
  straight source supplies.member (by rw [supplies.indexed]; rfl)

/-- The values that are taken from a straight chain are apart. -/
theorem Straight.apart (straight : config.Straight tree chain) (tidy : tree.Tidy call)
    (inside : tree.contains call) (first : tree.positionalValue? call 0 = some chain) :
    config.Apart tree call := by
  rw [apart_iff tidy inside]
  intro value member other otherMember differ below
  obtain ⟨_, passed⟩ := taken_of_mem member
  obtain ⟨_, also⟩ := taken_of_mem otherMember
  obtain ⟨_, supplier, found, supplies⟩ := supplies_of_passing passed
  obtain ⟨_, otherSupplier, again, otherSupplies⟩ := supplies_of_passing also
  cases first.symm.trans (chain?_eq_some found).2.1
  cases first.symm.trans (chain?_eq_some again).2.1
  have onSpine := straight.spine supplies
  have otherOnSpine := straight.spine otherSupplies
  have tidyChain : tree.Tidy chain := tidy.sub (Tree.below_of_positionalValue? first)
  have separate : otherSupplier ≠ supplier := by
    rintro rfl
    exact differ (Option.some.inj (supplies.passed.symm.trans otherSupplies.passed))
  -- The call further down the spine has all that it passes there.
  rcases onSpine.total otherOnSpine with down | up
  · exact (tidyChain.sub onSpine.under).spine_apart down separate supplies.passed
      (Tree.below_of_positionalValue? otherSupplies.passed) below
  · exact (tidyChain.sub otherOnSpine.under).spine_apart up separate.symm otherSupplies.passed
      ((Tree.below_of_positionalValue? supplies.passed).trans below) .self

/-- A call with a chain belongs to the program. -/
theorem reaches_of_chain? {source : String} {program : List Php.Statement}
    (found : config.chain? (Tree.ofProgram source program) call = some chain) :
    (Tree.ofProgram source program).Reaches call := by
  rcases (Tree.name_of_accepts (chain?_eq_some found).1).1 with kind | kind
  · exact Tree.ofProgram_reaches kind (by decide)
  · exact Tree.ofProgram_reaches kind (by decide)

/-- The chain of a call is flattened if a call of the first source somewhere below it has an argument
to give, and otherwise nothing is changed. The call then passes, at the position of each source, the
first argument of the first call of that source that has one, and a new `null` where there is none but
arguments follow. Where all source calls stand on the spine of the chain, it is the chain alone that is
flattened: the spine has a call of the first source, and nothing is taken but first arguments of source
calls on the spine. -/
theorem flattening_found {source : String} {program : List Php.Statement}
    (config : ExtractChainArguments) (call : NodeId) :
    let tree := Tree.ofProgram source program
    ∃ after, (config.apply call).run tree = (.ok .unchanged, after)
      ∧ ((after = tree ∧ ∀ chain, config.chain? tree call = some chain →
          ∀ first value, ¬ config.Supplies tree chain 0 first value)
        ∨ ∃ chain, config.chain? tree call = some chain ∧ tree.positionalValue? call 0 = some chain
          ∧ (∃ first value, config.Supplies tree chain 0 first value)
          ∧ (∀ position supplier value, config.Supplies tree chain position supplier value →
            after.positionalValue? call position = some value)
          ∧ (∀ position < (after.arguments call).length,
            ∃ value, after.positionalValue? call position = some value
              ∧ ((∃ supplier, config.Supplies tree chain position supplier value)
                ∨ ¬ tree.contains value ∧ after.shape? value = some (.raw "null")))
          ∧ (config.Straight tree chain →
            (∃ first, tree.Spine chain first ∧ config.sourceIndex? tree first = some 0)
            ∧ ∀ position value, tree.contains value →
              after.positionalValue? call position = some value →
                ∃ supplier, tree.Spine chain supplier
                  ∧ config.sourceIndex? tree supplier = some position
                  ∧ tree.positionalValue? supplier 0 = some value)) := by
  intro tree
  rcases run_apply config tree call with ⟨empty, ran⟩ | ⟨chain, value, rest, found, listed, _, _⟩
  · refine ⟨tree, ran, Or.inl ⟨rfl, ?_⟩⟩
    intro chain found first value supplies
    have passed := passing_of_supplies found supplies supplies
    rw [empty] at passed
    cases passed
  have kind := (Tree.name_of_accepts (chain?_eq_some found).1).1
  have reached := reaches_of_chain? found
  have tidy : tree.Tidy tree.root := Tree.ofProgram_tidy
  have inside := tidy.contains_below (Tree.contains_of_kind? Tree.ofProgram_rooted) reached
  obtain ⟨after, ran, outcome⟩ := run_apply_repassed config (tidy.sub reached) inside
  obtain ⟨_, repassed⟩ := outcome.resolve_left fun same => by
    rw [listed] at same
    cases same.1
  -- The first entry is a value, so a source of the first index supplies it.
  have head : (config.passing tree call)[0]? = some (some value) := by rw [listed]; rfl
  obtain ⟨_, first, also, supplies⟩ := supplies_of_passing head
  cases found.symm.trans also
  refine ⟨after, ran, Or.inr ⟨chain, found, (chain?_eq_some found).2.1, ⟨first, value, supplies⟩,
    ?_, fun _ => supplies_of_repassed repassed found, ?_⟩⟩
  · intro position supplier given supplied
    have passing := passing_of_supplies found supplies supplied
    obtain ⟨other, rfl, passes⟩ := repassed.passes kind passing
    exact passes
  · intro straight
    refine ⟨⟨first, straight.spine supplies, supplies.indexed⟩, ?_⟩
    intro position other early passed
    obtain ⟨argument, entry, _⟩ := Option.bind_eq_some_iff.mp passed
    have short := (List.getElem?_eq_some_iff.mp entry).1
    obtain ⟨also, passes, outcome⟩ := supplies_of_repassed repassed found short
    cases passed.symm.trans passes
    rcases outcome with ⟨supplier, given⟩ | ⟨fresh, _⟩
    · exact ⟨supplier, straight.spine given, given.indexed, given.passed⟩
    · exact absurd early fresh

-- A chain of two calls, `fromPath` on a class and `setName` on its result.
def chained : List Php.Statement :=
  (Php.program "<?php $m->attach(A::fromPath('x')->setName('y'));").toOption.getD []

def attaching : ExtractChainArguments :=
  ⟨"attach", none, ["fromPath", "setName"], none⟩

/-- Both source calls stand on the spine, and both of their arguments are taken. -/
theorem flattening_found_chained :
    let tree := Tree.ofProgram "<?php $m->attach(A::fromPath('x')->setName('y'));" chained
    attaching.Straight tree ⟨14⟩ ∧ ∃ after, (attaching.apply ⟨17⟩).run tree = (.ok .unchanged, after)
      ∧ (after.print {}).toOption = some "<?php $m->attach('x', 'y');"
      ∧ after.positionalValue? ⟨17⟩ 1 = some ⟨11⟩
      ∧ ∃ supplier, tree.Spine ⟨14⟩ supplier ∧ attaching.sourceIndex? tree supplier = some 1
        ∧ tree.positionalValue? supplier 0 = some ⟨11⟩ := by
  intro tree
  have facts : tree.kind? ⟨14⟩ = some .methodCall ∧ tree.child? ⟨14⟩ .object = some ⟨9⟩
      ∧ tree.positionalValue? ⟨17⟩ 0 = some ⟨14⟩ ∧ tree.contains ⟨11⟩
      ∧ (∀ source ∈ tree.descendants ⟨14⟩, (attaching.sourceIndex? tree source).isSome →
        source = ⟨14⟩ ∨ source = ⟨9⟩)
      ∧ (((attaching.apply ⟨17⟩).run tree).2.print {}).toOption
        = some "<?php $m->attach('x', 'y');"
      ∧ ((attaching.apply ⟨17⟩).run tree).2.positionalValue? ⟨17⟩ 1 = some ⟨11⟩
      ∧ tree.positionalValue? ⟨17⟩ 1 = none := by
    decide +kernel
  obtain ⟨kind, object, first, inside, sources, ends⟩ := facts
  have straight : attaching.Straight tree ⟨14⟩ := by
    intro source member indexed
    rcases sources source member indexed with rfl | rfl
    · exact .self
    · exact .object .self kind object
  obtain ⟨after, ran, outcome⟩ := flattening_found attaching ⟨17⟩
  rw [ran] at ends
  obtain ⟨printed, passed, absent⟩ := ends
  refine ⟨straight, after, ran, printed, passed, ?_⟩
  rcases outcome with ⟨same, _⟩ | ⟨chain, _, also, _, _, _, along⟩
  · rw [same] at passed
    cases absent.symm.trans passed
  · cases first.symm.trans also
    exact (along straight).2 1 _ inside passed

-- The chain is the call `A::wrap` alone, with a source call in its argument.
def wrapped : List Php.Statement :=
  (Php.program "<?php $m->attach(A::wrap(B::fromPath('x')));").toOption.getD []

/-- The argument is taken from a call that is not on the spine, and the call around it is lost. -/
theorem flattens_beside_spine :
    let tree := Tree.ofProgram "<?php $m->attach(A::wrap(B::fromPath('x')));" wrapped
    tree.positionalValue? ⟨17⟩ 0 = some ⟨14⟩
      ∧ (∀ first, tree.Spine ⟨14⟩ first → attaching.sourceIndex? tree first = none)
      ∧ (((attaching.apply ⟨17⟩).run tree).2.print {}).toOption = some "<?php $m->attach('x');" := by
  intro tree
  have facts : tree.positionalValue? ⟨17⟩ 0 = some ⟨14⟩ ∧ tree.kind? ⟨14⟩ = some .staticCall
      ∧ attaching.sourceIndex? tree ⟨14⟩ = none
      ∧ (((attaching.apply ⟨17⟩).run tree).2.print {}).toOption = some "<?php $m->attach('x');" := by
    decide +kernel
  obtain ⟨passed, kind, foreign, printed⟩ := facts
  have alone : ∀ {first}, tree.Spine ⟨14⟩ first → first = ⟨14⟩ := by
    intro first onSpine
    induction onSpine with
    | self => rfl
    | object _ above _ same =>
        rw [same, kind] at above
        cases above
  refine ⟨passed, ?_, printed⟩
  intro first onSpine
  rw [alone onSpine, foreign]

end ExtractChainArguments

end Codemod
