import Codemod.Catalog.Builder
import Codemod.Proofs.Catalog.Calls
import Codemod.Proofs.Walk.Preorder
import Mathlib.Data.List.DropRight
import Mathlib.Data.List.Pairwise
import Mathlib.Data.List.ReduceOption

/-!
What the rule that flattens chains takes out of them. For each source it is the first argument of one
call somewhere below the first argument of the call it is offered, so that two values have different
holders. They are apart where none of them holds another; this is not so for all chains, since a
source call may stand in the argument of another one.
-/

namespace Codemod

open Step

namespace Tree

variable {tree : Tree} {top id : NodeId}

theorem Preorder.mem_of_below {ids list : List NodeId} (order : tree.Preorder ids list)
    (among : id ∈ ids) {other : NodeId} (below : tree.Below id other) : other ∈ list := by
  induction order generalizing id with
  | nil => cases among
  | cons _ _ inner outer =>
      rw [List.mem_cons, List.mem_append]
      rcases List.mem_cons.mp among with rfl | later
      · rcases below_iff.mp below with same | ⟨child, held, under⟩
        · exact Or.inl same
        · exact Or.inr (Or.inl (inner (List.mem_map_of_mem held) under))
      · exact Or.inr (Or.inr (outer later below))

theorem Tidy.mem_descendants (tidy : tree.Tidy top) (inside : tree.contains top) :
    id ∈ tree.descendants top ↔ tree.Below top id :=
  ⟨below_of_within, (tidy.preorder inside).mem_of_below List.mem_cons_self⟩

/-- Where every node is held once two nodes with something in common are one below the other. -/
theorem Tidy.comparable (tidy : tree.Tidy top) {first second : NodeId}
    (firstBelow : tree.Below top first) (secondBelow : tree.Below top second)
    (inner : tree.Below first id) (also : tree.Below second id) :
    tree.Below first second ∨ tree.Below second first := by
  induction inner with
  | self => exact Or.inr also
  | child above held ih =>
      rcases tidy.holder_below (firstBelow.trans above) held secondBelow also with rfl | within
      · exact Or.inl (.child above held)
      · exact ih within

/-- A value that is passed by position has two nodes between it and its call. -/
theorem held_of_positionalValue? {call value : NodeId} {position : Nat}
    (found : tree.positionalValue? call position = some value) :
    ∃ slot list argument, (slot, list) ∈ tree.children call
      ∧ (.argument, argument) ∈ tree.children list ∧ (.value, value) ∈ tree.children argument := by
  obtain ⟨list, argument, held, listed, shaped⟩ := positionalValue?_eq_some found
  refine ⟨_, list, argument, child_of_child? held,
    mem_childrenIn.mp (List.mem_of_getElem? listed), ?_⟩
  rw [children_of_shape? shaped]
  exact List.mem_cons_self

theorem below_of_positionalValue? {call value : NodeId} {position : Nat}
    (found : tree.positionalValue? call position = some value) : tree.Below call value := by
  obtain ⟨slot, list, argument, listed, among, holds⟩ := held_of_positionalValue? found
  exact .child (.child (.child .self listed) among) holds

/-- Where every node is held once a value is passed by one call only. -/
theorem Tidy.passer_eq (tidy : tree.Tidy top) {first second value : NodeId} {position other : Nat}
    (firstBelow : tree.Below top first) (secondBelow : tree.Below top second)
    (passed : tree.positionalValue? first position = some value)
    (also : tree.positionalValue? second other = some value) : first = second := by
  obtain ⟨slot, list, argument, listed, among, holds⟩ := held_of_positionalValue? passed
  obtain ⟨_, otherList, otherArgument, alsoListed, alsoAmong, alsoHolds⟩ :=
    held_of_positionalValue? also
  have listBelow := firstBelow.child listed
  have otherBelow := secondBelow.child alsoListed
  obtain ⟨rfl, _⟩ := tidy.holder_eq (listBelow.child among) (otherBelow.child alsoAmong) holds
    alsoHolds rfl
  obtain ⟨rfl, _⟩ := tidy.holder_eq listBelow otherBelow among alsoAmong rfl
  exact (tidy.holder_eq firstBelow secondBelow listed alsoListed rfl).1

/-- A call of a method, on an object or on a class, spells its name. -/
theorem name_of_accepts {call : NodeId} {title : String}
    (accepted : (CallTarget.method title).accepts tree call) :
    (tree.kind? call = some .methodCall ∨ tree.kind? call = some .staticCall)
      ∧ ∃ callee spelled, tree.child? call .method = some callee
        ∧ tree.shape? callee = some (.name spelled) := by
  unfold CallTarget.accepts at accepted
  split at accepted
  · next wanted spelled asked named =>
      obtain ⟨kind, slot, callee, read, slotted, held, shaped⟩ := callName?_eq_some named
      rw [read, Option.bind_some] at asked
      rw [read]
      cases kind <;> cases asked <;> cases slotted
      · exact ⟨Or.inl rfl, callee, spelled, held, shaped⟩
      · exact ⟨Or.inr rfl, callee, spelled, held, shaped⟩
  · cases accepted

theorem listSlot_of_accepts {call : NodeId} {title : String}
    (accepted : (CallTarget.method title).accepts tree call) : tree.listSlot call = .arguments := by
  rcases (name_of_accepts accepted).1 with kind | kind <;> rw [listSlot, kind, if_neg (by decide)]

end Tree

namespace ExtractChainArguments

variable {config : ExtractChainArguments} {tree : Tree} {call chain source value : NodeId}
variable {index : Nat}

/-- A source call of an index whose first argument is taken: in the listing of the chain no source
call of this index before it has one. -/
def Supplies (config : ExtractChainArguments) (tree : Tree) (chain : NodeId) (index : Nat)
    (source value : NodeId) : Prop :=
  ∃ before after, tree.descendants chain = before ++ source :: after
    ∧ config.sourceIndex? tree source = some index
    ∧ tree.positionalValue? source 0 = some value
    ∧ ∀ other ∈ before, config.sourceIndex? tree other = some index →
      tree.positionalValue? other 0 = none

theorem supplies_of_found (found : ((tree.descendants chain).findSome? fun call =>
      if config.sourceIndex? tree call = some index then tree.positionalValue? call 0 else none)
        = some value) :
    ∃ source, config.Supplies tree chain index source value := by
  obtain ⟨before, source, after, listed, passes, early⟩ := List.findSome?_eq_some_iff.mp found
  obtain ⟨indexed, passed⟩ := Option.ite_none_right_eq_some.mp passes
  refine ⟨source, before, after, listed, indexed, passed, ?_⟩
  intro other member same
  have missed := early other member
  rwa [if_pos same] at missed

theorem supplies_of_values (given : (config.values tree chain)[index]? = some (some value)) :
    ∃ source, config.Supplies tree chain index source value := by
  rw [values, List.getElem?_map, Option.map_eq_some_iff] at given
  obtain ⟨place, ranged, found⟩ := given
  obtain ⟨inside, rfl⟩ := List.getElem?_eq_some_iff.mp ranged
  rw [List.getElem_range] at found
  exact supplies_of_found found

theorem Supplies.indexed (supplies : config.Supplies tree chain index source value) :
    config.sourceIndex? tree source = some index := by
  obtain ⟨_, _, _, indexed, _⟩ := supplies
  exact indexed

theorem Supplies.passed (supplies : config.Supplies tree chain index source value) :
    tree.positionalValue? source 0 = some value := by
  obtain ⟨_, _, _, _, passed, _⟩ := supplies
  exact passed

theorem Supplies.member (supplies : config.Supplies tree chain index source value) :
    source ∈ tree.descendants chain := by
  obtain ⟨before, after, listed, _⟩ := supplies
  rw [listed]
  exact List.mem_append_right before List.mem_cons_self

theorem Supplies.below (supplies : config.Supplies tree chain index source value) :
    tree.Below chain source :=
  Tree.below_of_within supplies.member

/-- What is supplied is among the values. -/
theorem Supplies.listed (supplies : config.Supplies tree chain index source value) :
    (config.values tree chain)[index]? = some (some value) := by
  have inside : index < config.sources.length := by
    have indexed := supplies.indexed
    unfold sourceIndex? at indexed
    obtain ⟨_, named⟩ := Option.ite_none_right_eq_some.mp indexed
    obtain ⟨_, _, found⟩ := Option.bind_eq_some_iff.mp named
    exact (List.findIdx?_eq_some_iff_getElem.mp found).1
  obtain ⟨before, after, parts, indexed, passed, early⟩ := supplies
  have found : ((tree.descendants chain).findSome? fun call =>
      if config.sourceIndex? tree call = some index then tree.positionalValue? call 0 else none)
        = some value := by
    refine List.findSome?_eq_some_iff.mpr ⟨before, source, after, parts, ?_, ?_⟩
    · rw [if_pos indexed, passed]
    · intro other member
      split
      · next same => exact early other member same
      · rfl
  rw [values, List.getElem?_map, List.getElem?_range inside, Option.map_some, found]

/-- Different indices are supplied by different calls, and these pass different values. -/
theorem Supplies.index_eq {other : Nat} {also : NodeId} (tidy : tree.Tidy chain)
    (supplies : config.Supplies tree chain index source value)
    (again : config.Supplies tree chain other also value) : index = other := by
  obtain rfl := tidy.passer_eq supplies.below again.below supplies.passed again.passed
  exact Option.some.inj (supplies.indexed.symm.trans again.indexed)

theorem chain?_eq_some (found : config.chain? tree call = some chain) :
    (CallTarget.method config.method).accepts tree call
      ∧ tree.positionalValue? call 0 = some chain
      ∧ ∃ first ∈ tree.descendants chain, config.sourceIndex? tree first = some 0 := by
  unfold chain? at found
  obtain ⟨accepted, found⟩ := Option.ite_none_right_eq_some.mp found
  obtain ⟨value, passed, found⟩ := Option.bind_eq_some_iff.mp found
  obtain ⟨both, same⟩ := Option.ite_none_right_eq_some.mp found
  cases same
  obtain ⟨first, member, indexed⟩ := List.any_eq_true.mp (Bool.and_eq_true_iff.mp both).2
  exact ⟨accepted, passed, first, member, beq_iff_eq.mp indexed⟩

/-- What is passed on at a call: a value or a gap for each source up to the last that has a value.
Where the first source has none, nothing is. -/
def passing (config : ExtractChainArguments) (tree : Tree) (call : NodeId) : List (Option NodeId) :=
  match config.chain? tree call with
  | none => []
  | some chain =>
      let values := config.values tree chain
      if (values.head?.bind fun value => value).isSome then values.rdropWhile Option.isNone else []

def taken (config : ExtractChainArguments) (tree : Tree) (call : NodeId) : List NodeId :=
  (config.passing tree call).reduceOption

/-- No value that is passed on holds another. -/
def Apart (config : ExtractChainArguments) (tree : Tree) (call : NodeId) : Prop :=
  (config.taken tree call).Pairwise fun first second =>
    second ∉ tree.descendants first ∧ first ∉ tree.descendants second

instance (config : ExtractChainArguments) (tree : Tree) (call : NodeId) :
    Decidable (config.Apart tree call) :=
  inferInstanceAs (Decidable (List.Pairwise ..))

/-- Dropping gaps at the end drops no value. -/
theorem rdropWhile_getElem? {values : List (Option NodeId)}
    (given : values[index]? = some (some value)) :
    (values.rdropWhile Option.isNone)[index]? = some (some value) := by
  have parts : values.rdropWhile Option.isNone ++ values.rtakeWhile Option.isNone = values :=
    List.rdropWhile_append_rtakeWhile
  rw [← parts, List.getElem?_append] at given
  split at given
  · exact given
  · cases List.mem_rtakeWhile_imp (List.mem_of_getElem? given)

/-- The rule leaves a call alone, or it flattens a chain whose first source has a value. -/
theorem run_apply (config : ExtractChainArguments) (tree : Tree) (call : NodeId) :
    config.passing tree call = [] ∧ (config.apply call).run tree = (.ok .unchanged, tree)
      ∨ ∃ chain first rest, config.chain? tree call = some chain
        ∧ config.passing tree call = some first :: rest
        ∧ config.passing tree call = (config.values tree chain).rdropWhile Option.isNone
        ∧ (config.apply call).run tree
          = (do config.flatten call (config.values tree chain); return .unchanged :
              RuleStep Verdict).run tree := by
  rw [apply, run_bind_ok (RuleStep.run_get tree)]
  unfold passing
  cases found : config.chain? tree call with
  | none => exact Or.inl ⟨rfl, rfl⟩
  | some chain =>
      dsimp only
      cases listed : config.values tree chain with
      | nil => exact Or.inl ⟨rfl, rfl⟩
      | cons value others =>
          cases value with
          | none => exact Or.inl ⟨rfl, rfl⟩
          | some first =>
              right
              have leads : ((some first :: others).rdropWhile Option.isNone).head?
                  = some (some first) := by
                rw [List.head?_eq_getElem?]
                exact rdropWhile_getElem? rfl
              obtain ⟨rest, split⟩ := List.head?_eq_some_iff.mp leads
              exact ⟨chain, first, rest, rfl, split, by rw [listed]; rfl, by rw [listed]; rfl⟩

theorem supplies_of_passing (passed : (config.passing tree call)[index]? = some (some value)) :
    ∃ chain source, config.chain? tree call = some chain
      ∧ config.Supplies tree chain index source value := by
  rcases run_apply config tree call with ⟨empty, _⟩ | ⟨chain, _, _, found, _, kept, _⟩
  · rw [empty] at passed
    cases passed
  · rw [kept] at passed
    obtain ⟨dropped, whole⟩ := List.rdropWhile_prefix Option.isNone (config.values tree chain)
    have given : (config.values tree chain)[index]? = some (some value) := by
      rw [← whole, List.getElem?_append_left (List.getElem?_eq_some_iff.mp passed).1, passed]
    obtain ⟨source, supplies⟩ := supplies_of_values given
    exact ⟨chain, source, found, supplies⟩

/-- Where the first source has a value, all values are passed on. -/
theorem passing_of_supplies (found : config.chain? tree call = some chain) {first head : NodeId}
    (starts : config.Supplies tree chain 0 first head)
    (supplies : config.Supplies tree chain index source value) :
    (config.passing tree call)[index]? = some (some value) := by
  have leading : (config.values tree chain).head? = some (some head) := by
    rw [List.head?_eq_getElem?, starts.listed]
  unfold passing
  simp only [found, leading, Option.bind_some, Option.isSome_some, if_true]
  exact rdropWhile_getElem? supplies.listed

section

variable (tidy : tree.Tidy call)

/-- All that is taken is below the first argument of the call. -/
theorem held_of_passing (passed : (config.passing tree call)[index]? = some (some value)) :
    ∃ list argument chain, tree.child? call .arguments = some list
      ∧ (.argument, argument) ∈ tree.children list ∧ (.value, chain) ∈ tree.children argument
      ∧ tree.Below chain value := by
  obtain ⟨chain, source, found, supplies⟩ := supplies_of_passing passed
  obtain ⟨accepted, first, _⟩ := chain?_eq_some found
  obtain ⟨list, argument, held, listed, shaped⟩ := Tree.positionalValue?_eq_some first
  refine ⟨list, argument, chain, ?_, Tree.mem_childrenIn.mp (List.mem_of_getElem? listed), ?_,
    supplies.below.trans (Tree.below_of_positionalValue? supplies.passed)⟩
  · rwa [Tree.listSlot_of_accepts accepted] at held
  · rw [Tree.children_of_shape? shaped]
    exact List.mem_cons_self

theorem taken_of_mem (member : value ∈ config.taken tree call) :
    ∃ index : Nat, (config.passing tree call)[index]? = some (some value) :=
  List.getElem?_of_mem (List.reduceOption_mem_iff.mp member)

include tidy in
theorem nodup_taken : (config.taken tree call).Nodup := by
  unfold taken
  rcases run_apply config tree call with ⟨empty, _⟩ | ⟨chain, _, _, found, _, kept, _⟩
  · rw [empty]
    exact List.nodup_nil
  · have below := Tree.below_of_positionalValue? (chain?_eq_some found).2.1
    have whole : (config.values tree chain).reduceOption.Nodup := by
      rw [List.reduceOption, values, List.filterMap_map]
      refine List.Nodup.filterMap ?_ List.nodup_range
      intro first second value given again
      obtain ⟨_, supplies⟩ := supplies_of_found given
      obtain ⟨_, also⟩ := supplies_of_found again
      exact supplies.index_eq (tidy.sub below) also
    rw [kept]
    exact whole.sublist ((List.rdropWhile_prefix _ _).filterMap fun value => value).sublist

theorem contains_taken (tidy : tree.Tidy call) (inside : tree.contains call)
    (member : value ∈ config.taken tree call) :
    tree.Below call value ∧ tree.contains value := by
  obtain ⟨index, passed⟩ := taken_of_mem member
  obtain ⟨list, argument, chain, held, among, holds, below⟩ := held_of_passing passed
  have reached : tree.Below call value :=
    .trans (.child (.child (.child .self (Tree.child_of_child? held)) among) holds) below
  exact ⟨reached, tidy.contains_below inside reached⟩

include tidy in
theorem apart_iff (inside : tree.contains call) :
    config.Apart tree call ↔ ∀ first ∈ config.taken tree call, ∀ second ∈ config.taken tree call,
      first ≠ second → ¬ tree.Below first second := by
  have listed : ∀ {first second}, first ∈ config.taken tree call →
      (second ∈ tree.descendants first ↔ tree.Below first second) := by
    intro first second member
    obtain ⟨below, present⟩ := contains_taken tidy inside member
    exact (tidy.sub below).mem_descendants present
  constructor
  · intro apart first firstMember second secondMember differ inner
    have symmetric : Std.Symm fun first second : NodeId =>
        second ∉ tree.descendants first ∧ first ∉ tree.descendants second := ⟨fun _ _ => And.symm⟩
    have separate := List.Pairwise.forall apart firstMember secondMember differ
    exact separate.1 ((listed firstMember).mpr inner)
  · intro separate
    apply (nodup_taken tidy).pairwise_of_forall_ne
    intro first firstMember second secondMember differ
    rw [listed firstMember, listed secondMember]
    exact ⟨separate first firstMember second secondMember differ,
      separate second secondMember first firstMember differ.symm⟩

include tidy in
/-- Values that are apart have nothing in common. -/
theorem Apart.disjoint (inside : tree.contains call) (apart : config.Apart tree call)
    {first second : NodeId} (firstMember : first ∈ config.taken tree call)
    (secondMember : second ∈ config.taken tree call) (differ : first ≠ second) {id : NodeId}
    (inner : tree.Below first id) : ¬ tree.Below second id := by
  have separate := (apart_iff tidy inside).mp apart
  intro also
  have firstBelow := (contains_taken tidy inside firstMember).1
  have secondBelow := (contains_taken tidy inside secondMember).1
  rcases tidy.comparable firstBelow secondBelow inner also with within | within
  · exact separate first firstMember second secondMember differ within
  · exact separate second secondMember first firstMember differ.symm within

end

end ExtractChainArguments

end Codemod
