import Codemod.Proofs.Print.Validity
import Codemod.Proofs.Text.Interleave

/-!
What printing goes through. Whatever way a node is printed, every node below it is printed or copied
with a subtree that was read. So printing a node succeeds exactly when no verbatim node without a
source is below it, and fails at such a node otherwise. Two things are needed: no path from the root
is longer than the arena, and the layout of every node that was read lies in its span in order.
-/

namespace Codemod

theorem List.map_snd_zip_sublist {α β : Type} (first : List α) (second : List β) :
    ((first.zip second).map Prod.snd).Sublist second := by
  induction first generalizing second with
  | nil => exact List.nil_sublist second
  | cons value rest ih =>
      cases second with
      | nil => exact List.Sublist.refl _
      | cons other others => exact (ih others).cons_cons other

/-- A node whose layout can be printed around: its places lie in its span in order, and a verbatim
node has a place for each part. -/
def Node.Sound (source : String) (node : Node) : Prop :=
  ∀ span, node.span = some span → Text.Laid source span (node.layout.map Prod.snd)
    ∧ (node.shape.kind = .verbatim → node.shape.children.length ≤ node.layout.length)

namespace Tree

variable {tree : Tree} {α β : Type}

def Sourceless (tree : Tree) (id : NodeId) : Prop :=
  ∃ node, tree.node? id = some node ∧ node.shape.kind = .verbatim ∧ node.span = none

theorem Below.trans {top middle id : NodeId} (above : tree.Below top middle)
    (below : tree.Below middle id) : tree.Below top id := by
  induction below with
  | self => exact above
  | child _ held ih => exact .child ih held

theorem below_iff {top id : NodeId} :
    tree.Below top id ↔ id = top ∨ ∃ child ∈ tree.children top, tree.Below child.2 id := by
  constructor
  · intro below
    induction below with
    | self => exact Or.inl rfl
    | @child parent id slot above held ih =>
        rcases ih with rfl | ⟨child, member, below⟩
        · exact Or.inr ⟨(slot, id), held, .self⟩
        · exact Or.inr ⟨child, member, .child below held⟩
  · rintro (rfl | ⟨child, member, below⟩)
    · exact .self
    · exact Below.trans (.child .self member) below

/-- A way down to a node: the nodes above it, the nearest first. -/
inductive Path (tree : Tree) : NodeId → List NodeId → Prop where
  | root : Path tree tree.root []
  | child {parent id : NodeId} {slot : Slot} {above : List NodeId} (path : Path tree parent above)
      (held : (slot, id) ∈ tree.children parent) : Path tree id (parent :: above)

theorem Path.reaches {id : NodeId} {above : List NodeId} (path : tree.Path id above) :
    tree.Reaches id := by
  induction path with
  | root => exact .self
  | child _ held ih => exact .child ih held

theorem Path.holder_mem (held : tree.HeldOnce) {bottom id holder : NodeId} {above : List NodeId}
    {slot : Slot} (path : tree.Path bottom above) (member : id ∈ bottom :: above)
    (distinct : id ≠ tree.root) (named : tree.parent? id = some ⟨holder, slot⟩) :
    holder ∈ above := by
  -- A node of the path other than the root is held by the node above it, and by no other.
  induction path with
  | root => exact absurd (List.mem_singleton.mp member) distinct
  | @child parent bottom seat above path holds ih =>
      rcases List.mem_cons.mp member with rfl | higher
      · have back := (held.holds path.reaches).named _ holds
        have links := Option.some.inj (named.symm.trans back)
        cases links
        exact List.mem_cons_self
      · exact List.mem_cons_of_mem _ (ih higher)

theorem Path.nodup (held : tree.HeldOnce) {id : NodeId} {above : List NodeId}
    (path : tree.Path id above) : (id :: above).Nodup := by
  induction path with
  | root => simp
  | @child parent id slot above path holds ih =>
      refine List.nodup_cons.mpr ⟨?_, ih⟩
      intro again
      have orderly := held.holds path.reaches
      have holder := path.holder_mem held again (orderly.rootless _ holds) (orderly.named _ holds)
      exact (List.nodup_cons.mp ih).1 holder

theorem Path.inside (held : tree.HeldOnce) (rooted : tree.contains tree.root) {id : NodeId}
    {above : List NodeId} (path : tree.Path id above) : ∀ other ∈ id :: above, tree.contains other := by
  induction path with
  | root =>
      intro other member
      cases List.mem_singleton.mp member
      exact rooted
  | child path holds ih =>
      have named := (held.holds path.reaches).named _ holds
      exact List.forall_mem_cons.mpr ⟨contains_of_parent? named, ih⟩

theorem Path.down {top id : NodeId} {above : List NodeId} (path : tree.Path top above)
    (below : tree.Below top id) : ∃ longer, tree.Path id longer ∧ above.length ≤ longer.length := by
  induction below with
  | self => exact ⟨above, path, Nat.le_refl _⟩
  | child _ holds ih =>
      obtain ⟨longer, path, length⟩ := ih
      exact ⟨_, .child path holds, Nat.le_succ_of_le length⟩

/-- A step of printing that succeeds exactly if nothing below the given nodes lacks a source. -/
def Covers (tree : Tree) (ids : List NodeId) : Except PrintError α → Prop
  | .ok _ => ∀ id ∈ ids, ∀ other, tree.Below id other → ¬ tree.Sourceless other
  | .error error => ∃ other, error = .sourceless other ∧ tree.Sourceless other
      ∧ ∃ id ∈ ids, tree.Below id other

theorem covers_pure (value : α) : tree.Covers [] (pure value : Except PrintError α) := by
  intro id member
  cases member

theorem Covers.congr {ids others : List NodeId} {step : Except PrintError α}
    (covers : tree.Covers ids step)
    (same : ∀ id, tree.Sourceless id →
      ((∃ top ∈ ids, tree.Below top id) ↔ ∃ top ∈ others, tree.Below top id)) :
    tree.Covers others step := by
  cases step with
  | ok value =>
      intro top member id below lacks
      obtain ⟨before, among, under⟩ := (same id lacks).mpr ⟨top, member, below⟩
      exact covers before among id under lacks
  | error error =>
      obtain ⟨id, named, lacks, below⟩ := covers
      exact ⟨id, named, lacks, (same id lacks).mp below⟩

theorem Covers.of_mem_iff {ids others : List NodeId} {step : Except PrintError α}
    (covers : tree.Covers ids step) (same : ∀ id, id ∈ ids ↔ id ∈ others) :
    tree.Covers others step :=
  covers.congr fun _ _ => by simp only [same]

theorem Covers.bind {ids more : List NodeId} {step : Except PrintError α}
    {next : α → Except PrintError β} (first : tree.Covers ids step)
    (second : ∀ value, step = .ok value → tree.Covers more (next value)) :
    tree.Covers (ids ++ more) (step >>= next) := by
  cases step with
  | error error =>
      obtain ⟨id, named, lacks, top, member, below⟩ := first
      exact ⟨id, named, lacks, top, List.mem_append_left _ member, below⟩
  | ok value =>
      have rest := second value rfl
      have steps : (Except.ok value >>= next) = next value := rfl
      rw [steps]
      cases made : next value with
      | ok result =>
          rw [made] at rest
          intro id member
          rcases List.mem_append.mp member with before | after
          · exact first id before
          · exact rest id after
      | error error =>
          rw [made] at rest
          obtain ⟨id, named, lacks, top, member, below⟩ := rest
          exact ⟨id, named, lacks, top, List.mem_append_right _ member, below⟩

theorem Covers.finish {ids : List NodeId} {step : Except PrintError α}
    {next : α → Except PrintError β} (covers : tree.Covers ids step)
    (sure : ∀ value, ∃ result, next value = .ok result) : tree.Covers ids (step >>= next) := by
  have last : ∀ value, step = .ok value → tree.Covers [] (next value) := by
    intro value _
    obtain ⟨result, made⟩ := sure value
    rw [made]
    exact covers_pure result
  have both := covers.bind last
  rwa [List.append_nil] at both

/-- A node with nothing sourceless below it need not be printed. -/
theorem Covers.skip {ids : List NodeId} {id : NodeId} {step : Except PrintError α}
    (covers : tree.Covers ids step)
    (sourced : ∀ other, tree.Below id other → ¬ tree.Sourceless other) :
    tree.Covers (id :: ids) step := by
  apply covers.congr
  intro other lacks
  constructor
  · rintro ⟨top, member, below⟩
    exact ⟨top, List.mem_cons_of_mem _ member, below⟩
  · rintro ⟨top, member, below⟩
    rcases List.mem_cons.mp member with rfl | among
    · exact absurd lacks (sourced other below)
    · exact ⟨top, among, below⟩

theorem covers_mapM {step : α → Except PrintError β} {ids : α → List NodeId} {values : List α}
    (each : ∀ value ∈ values, tree.Covers (ids value) (step value)) :
    tree.Covers (values.flatMap ids) (values.mapM step) := by
  induction values with
  | nil => exact covers_pure []
  | cons value rest ih =>
      rw [List.mapM_cons, List.flatMap_cons]
      have others := ih fun value member => each value (List.mem_cons_of_mem _ member)
      exact (each value List.mem_cons_self).bind fun _ _ => others.finish fun _ => ⟨_, rfl⟩

theorem covers_mapM_nodes {step : NodeId → Except PrintError α} {ids : List NodeId}
    (each : ∀ id ∈ ids, tree.Covers [id] (step id)) : tree.Covers ids (ids.mapM step) := by
  have all := covers_mapM each
  rwa [List.flatMap_singleton'] at all

/-- A node is gone through with its children, unless it lacks a source itself. -/
theorem Covers.node {id : NodeId} {node : Node} {step : Except PrintError α}
    (covers : tree.Covers (node.shape.children.map Prod.snd) step)
    (found : tree.node? id = some node) (sourced : ¬ tree.Sourceless id) :
    tree.Covers [id] step := by
  apply covers.congr
  intro other lacks
  rw [← children_of_node? found]
  constructor
  · rintro ⟨top, member, below⟩
    obtain ⟨child, held, rfl⟩ := List.mem_map.mp member
    exact ⟨id, List.mem_singleton_self id, below_iff.mpr (Or.inr ⟨child, held, below⟩)⟩
  · rintro ⟨top, member, below⟩
    cases List.mem_singleton.mp member
    rcases below_iff.mp below with rfl | ⟨child, held, under⟩
    · exact absurd lacks sourced
    · exact ⟨child.2, List.mem_map_of_mem held, under⟩

/-- Everything below an untouched node was read. -/
theorem pristineTo_spanned {depth : Nat} {top id : NodeId} (pristine : tree.pristineTo depth top)
    (below : tree.Below top id) : (tree.span? id).isSome := by
  induction depth generalizing top with
  | zero => cases pristine
  | succ depth ih =>
      rw [pristineTo] at pristine
      cases found : tree.node? top with
      | none => simp [found] at pristine
      | some node =>
          simp only [found, Bool.and_eq_true, beq_iff_eq, List.all_eq_true] at pristine
          obtain ⟨⟨⟨read, _⟩, lengths⟩, places⟩ := pristine
          rcases below_iff.mp below with rfl | ⟨child, held, under⟩
          · simpa [span?, found] using read
          · rw [children_of_node? found] at held
            obtain ⟨index, inside, stands⟩ := List.getElem_of_mem held
            have place : index < (node.shape.children.zip node.layout).length := by
              rw [List.length_zip]
              omega
            have zipped := places _ (List.getElem_mem place)
            rw [List.getElem_zip, stands] at zipped
            exact ih zipped.2 under

theorem pristineTo_sourced {depth : Nat} {top id : NodeId} (pristine : tree.pristineTo depth top)
    (below : tree.Below top id) : ¬ tree.Sourceless id := by
  rintro ⟨node, found, _, lacks⟩
  have read := pristineTo_spanned pristine below
  simp [span?, found, lacks] at read

def Under (tree : Tree) (top id : NodeId) : Prop :=
  ∃ child ∈ tree.children top, tree.Below child.2 id

theorem Under.below {top id : NodeId} (under : tree.Under top id) : tree.Below top id :=
  below_iff.mpr (Or.inr under)

def chained (links : NodeId × List ChainedCall) : List NodeId :=
  links.1 :: links.2.flatMap fun call => [call.method, call.arguments]

theorem mem_chained_append {head top : NodeId} {calls : List ChainedCall} {call : ChainedCall} :
    top ∈ chained (head, calls ++ [call]) ↔
      top ∈ chained (head, calls) ∨ top = call.method ∨ top = call.arguments := by
  simp [chained, or_assoc]

theorem chain_methodCall {id object method arguments : NodeId} {nullsafe : Bool}
    (found : tree.shape? id = some (.methodCall object method arguments nullsafe)) (depth : Nat) :
    ∃ before, (before = (object, []) ∨ before = tree.chain depth object)
      ∧ tree.chain (depth + 1) id = (before.1, before.2 ++ [⟨method, arguments, nullsafe⟩]) := by
  simp only [chain, found]
  split
  · exact ⟨(object, []), Or.inl rfl, rfl⟩
  · exact ⟨tree.chain depth object, Or.inr rfl, rfl⟩

/-- A chain stands for the node it was found at: what it prints is below the node, and nothing
sourceless below the node is left out. -/
structure StandsFor (tree : Tree) (links : NodeId × List ChainedCall) (id : NodeId) : Prop where
  below : ∀ top ∈ chained links, tree.Below id top
  covers : ∀ other, tree.Below id other → tree.Sourceless other →
    ∃ top ∈ chained links, tree.Below top other

theorem standsFor_self (id : NodeId) : tree.StandsFor (id, []) id where
  below top member := by
    cases List.mem_singleton.mp member
    exact .self
  covers other below _ := ⟨id, List.mem_singleton_self id, below⟩

section

variable {id object method arguments : NodeId} {nullsafe : Bool}
variable (found : tree.shape? id = some (.methodCall object method arguments nullsafe))

include found

theorem children_methodCall :
    tree.children id = [(.object, object), (.method, method), (.arguments, arguments)] := by
  rw [Tree.children, found]
  rfl

theorem StandsFor.under {before : NodeId × List ChainedCall} (stands : tree.StandsFor before object) :
    ∀ top ∈ chained (before.1, before.2 ++ [⟨method, arguments, nullsafe⟩]), tree.Under id top := by
  intro top member
  rw [Under, children_methodCall found]
  rcases mem_chained_append.mp member with inner | same | same
  · exact ⟨(.object, object), by simp, stands.below top inner⟩
  · exact ⟨(.method, method), by simp, same ▸ .self⟩
  · exact ⟨(.arguments, arguments), by simp, same ▸ .self⟩

theorem StandsFor.call {before : NodeId × List ChainedCall} (stands : tree.StandsFor before object) :
    tree.StandsFor (before.1, before.2 ++ [⟨method, arguments, nullsafe⟩]) id := by
  constructor
  · intro top member
    exact (stands.under found top member).below
  · intro other below lacks
    rcases below_iff.mp below with rfl | ⟨child, held, under⟩
    · obtain ⟨node, there, verbatim, _⟩ := lacks
      simp only [shape?, there, Option.map_some, Option.some.injEq] at found
      rw [found] at verbatim
      cases verbatim
    · rw [children_methodCall found] at held
      simp only [List.mem_cons, List.not_mem_nil, or_false] at held
      rcases held with rfl | rfl | rfl
      · obtain ⟨top, member, above⟩ := stands.covers other under lacks
        exact ⟨top, mem_chained_append.mpr (Or.inl member), above⟩
      · exact ⟨method, mem_chained_append.mpr (Or.inr (Or.inl rfl)), under⟩
      · exact ⟨arguments, mem_chained_append.mpr (Or.inr (Or.inr rfl)), under⟩

end

theorem chain_standsFor (depth : Nat) (id : NodeId) : tree.StandsFor (tree.chain depth id) id := by
  induction depth generalizing id with
  | zero => exact standsFor_self id
  | succ depth ih =>
      by_cases call : ∃ object method arguments nullsafe,
          tree.shape? id = some (.methodCall object method arguments nullsafe)
      · obtain ⟨object, method, arguments, nullsafe, found⟩ := call
        obtain ⟨before, rfl | rfl, chains⟩ := chain_methodCall found depth
        · rw [chains]
          exact (standsFor_self object).call found
        · rw [chains]
          exact (ih object).call found
      · have alone : tree.chain (depth + 1) id = (id, []) := by
          rw [chain]
          split
          · next found => exact absurd ⟨_, _, _, _, found⟩ call
          · rfl
        rw [alone]
        exact standsFor_self id

theorem chain_under {id object method arguments : NodeId} {nullsafe : Bool}
    (found : tree.shape? id = some (.methodCall object method arguments nullsafe)) (depth : Nat) :
    ∀ top ∈ chained (tree.chain (depth + 1) id), tree.Under id top := by
  obtain ⟨before, rfl | rfl, chains⟩ := chain_methodCall found depth
  · rw [chains]
    exact (standsFor_self object).under found
  · rw [chains]
    exact (chain_standsFor depth object).under found

section

variable {options : PrintOptions} {print : NodeId → String → Except PrintError String}
variable {id : NodeId} {node : Node}
variable (each : ∀ other, tree.Under id other → ∀ base, tree.Covers [other] (print other base))
theorem under_of_child (found : tree.node? id = some node) {child : Slot × NodeId}
    (held : child ∈ node.shape.children) : tree.Under id child.2 := by
  rw [← children_of_node? found] at held
  exact ⟨child, held, .self⟩

include each

theorem printChild_covers {slot : Slot} {child : NodeId} (under : tree.Under id child)
    (base : String) : tree.Covers [child] (tree.printChild print id slot child base) := by
  apply (each child under base).finish
  intro text
  split <;> exact ⟨_, rfl⟩

theorem childReplacements_covers {pairs : List ((Slot × NodeId) × (Slot × Span))}
    (under : ∀ pair ∈ pairs, tree.Under id pair.1.2) :
    tree.Covers (pairs.map fun pair => pair.1.2) (tree.childReplacements print id pairs) := by
  induction pairs with
  | nil => exact covers_pure []
  | cons pair rest ih =>
      obtain ⟨⟨slot, child⟩, ⟨_, place⟩⟩ := pair
      obtain ⟨here, later⟩ := List.forall_mem_cons.mp under
      rw [childReplacements]
      split
      · next kept =>
          have pristine : tree.isPristine child := (Bool.and_eq_true_iff.mp kept).2
          exact (ih later).skip fun other below => pristineTo_sourced pristine below
      · exact (printChild_covers each here _).bind fun text _ =>
          (ih later).finish fun _ => ⟨_, rfl⟩

omit each in
theorem childReplacements_spans {pairs : List ((Slot × NodeId) × (Slot × Span))}
    {edits : List Replacement} (made : tree.childReplacements print id pairs = .ok edits) :
    (edits.map Replacement.span).Sublist (pairs.map fun pair => pair.2.2) := by
  induction pairs generalizing edits with
  | nil =>
      cases made
      exact List.Sublist.refl _
  | cons pair rest ih =>
      obtain ⟨⟨slot, child⟩, ⟨_, place⟩⟩ := pair
      rw [childReplacements] at made
      split at made
      · exact (ih made).cons _
      · cases printed : tree.printChild print id slot child
            (Text.lineIndent tree.source place.start) with
        | error error =>
            rw [printed] at made
            cases made
        | ok text =>
            rw [printed] at made
            cases others : tree.childReplacements print id rest with
            | error error =>
                rw [others] at made
                cases made
            | ok later =>
                rw [others] at made
                cases made
                exact (ih others).cons_cons _

/-- Where every child has a place, printing around the children goes through all of them. -/
theorem printAround_covers (found : tree.node? id = some node) {span : Span}
    (laid : Text.Laid tree.source span (node.layout.map Prod.snd))
    (placed : node.shape.children.length ≤ node.layout.length) :
    tree.Covers (node.shape.children.map Prod.snd) (tree.printAround print id node span) := by
  let pairs := node.shape.children.zip node.layout
  have children : pairs.map Prod.fst = node.shape.children := List.map_fst_zip placed
  have held : ∀ pair ∈ pairs, tree.Under id pair.1.2 := by
    intro pair member
    apply under_of_child found
    rw [← children]
    exact List.mem_map_of_mem member
  have printed := childReplacements_covers each held
  have ids : (pairs.map fun pair => pair.1.2) = node.shape.children.map Prod.snd := by
    rw [← children, List.map_map]
    rfl
  rw [ids] at printed
  unfold printAround
  have whole : tree.Covers (node.shape.children.map Prod.snd ++ [])
      (tree.printAround print id node span) := by
    apply printed.bind
    intro edits made
    have places : (pairs.map fun pair => pair.2.2).Sublist (node.layout.map Prod.snd) := by
      have seconds : (pairs.map fun pair => pair.2.2) = (pairs.map Prod.snd).map Prod.snd := by
        rw [List.map_map]
        rfl
      rw [seconds]
      exact (List.map_snd_zip_sublist _ _).map _
    rw [Text.splice_eq (laid.sublist ((childReplacements_spans made).trans places))]
    exact covers_pure _
  rwa [List.append_nil] at whole

theorem printItems_covers {places : List Span} {itemBase gap : String}
    (previous : Option (Option Nat)) {items : List NodeId}
    (under : ∀ item ∈ items, tree.Under id item) :
    tree.Covers items (tree.printItems print places itemBase gap previous items) := by
  induction items generalizing previous with
  | nil => exact covers_pure ""
  | cons item rest ih =>
      obtain ⟨here, later⟩ := List.forall_mem_cons.mp under
      unfold printItems
      exact (each item here _).bind fun text _ => (ih _ later).finish fun _ => ⟨_, rfl⟩

theorem printResized_covers {span first : Span} {places : List Span}
    (found : tree.node? id = some node) :
    tree.Covers (node.shape.children.map Prod.snd)
      (tree.printResized print node span places first) := by
  have under : ∀ item ∈ node.shape.children.map Prod.snd, tree.Under id item := by
    intro item member
    obtain ⟨child, held, rfl⟩ := List.mem_map.mp member
    exact under_of_child found held
  exact (printItems_covers each none under).finish fun _ => ⟨_, rfl⟩

theorem printJoined_covers {gap base : String} {ids : List NodeId}
    (under : ∀ item ∈ ids, tree.Under id item) :
    tree.Covers ids (printJoined print gap ids base) :=
  (covers_mapM_nodes fun item member => each item (under item member) base).finish fun _ => ⟨_, rfl⟩

theorem printBlock_covers {base : String} {ids : List NodeId}
    (under : ∀ item ∈ ids, tree.Under id item) :
    tree.Covers ids (printBlock options print ids base) := by
  apply Covers.finish
  · apply covers_mapM_nodes
    intro item member
    exact (each item (under item member) _).finish fun _ => ⟨_, rfl⟩
  · exact fun _ => ⟨_, rfl⟩

theorem printCall_covers {base lead : String} {call : ChainedCall}
    (method : tree.Under id call.method) (arguments : tree.Under id call.arguments) :
    tree.Covers [call.method, call.arguments] (printCall print base lead call) :=
  (each call.method method base).bind fun _ _ =>
    (each call.arguments arguments base).finish fun _ => ⟨_, rfl⟩

theorem printChain_covers {object method arguments : NodeId} {nullsafe : Bool} {base : String}
    (found : tree.shape? id = some (.methodCall object method arguments nullsafe))
    (filled : 0 < tree.size) : tree.Covers [id] (tree.printChain options print id base) := by
  obtain ⟨depth, enough⟩ : ∃ depth, tree.size = depth + 1 := ⟨tree.size - 1, by omega⟩
  have under := chain_under found depth
  have stands := tree.chain_standsFor (depth + 1) id
  unfold printChain
  rw [enough]
  generalize tree.chain (depth + 1) id = links at under stands ⊢
  obtain ⟨head, calls⟩ := links
  obtain ⟨first, later⟩ := List.forall_mem_cons.mp under
  have callsUnder : ∀ call ∈ calls, tree.Under id call.method ∧ tree.Under id call.arguments := by
    intro call member
    constructor
    · exact later _ (List.mem_flatMap.mpr ⟨call, member, by simp⟩)
    · exact later _ (List.mem_flatMap.mpr ⟨call, member, by simp⟩)
  refine Covers.congr (?_ : tree.Covers (chained (head, calls)) _) ?_
  · exact (each head first base).bind fun text _ =>
      (covers_mapM fun call member => printCall_covers each (callsUnder call member).1
        (callsUnder call member).2).finish fun texts => ⟨_, rfl⟩
  · intro other lacks
    constructor
    · rintro ⟨top, member, below⟩
      exact ⟨id, List.mem_singleton_self id, (stands.below top member).trans below⟩
    · rintro ⟨top, member, below⟩
      cases List.mem_singleton.mp member
      exact stands.covers other below lacks

theorem printOptional_covers {base missing : String} {around : String → String}
    {held : Option NodeId} (under : ∀ item ∈ held.toList, tree.Under id item) :
    tree.Covers held.toList (printOptional print held base missing around) := by
  cases held with
  | none => exact covers_pure missing
  | some child => exact (each child (under child (by simp)) base).finish fun _ => ⟨_, rfl⟩

theorem printCanonical_covers {base : String} (found : tree.node? id = some node)
    (sound : node.Sound tree.source) (filled : 0 < tree.size) :
    tree.Covers [id] (tree.printCanonical options print id node base) := by
  have under : ∀ item ∈ node.shape.children.map Prod.snd, tree.Under id item := by
    intro item member
    obtain ⟨child, held, rfl⟩ := List.mem_map.mp member
    exact under_of_child found held
  have sourced : node.shape.kind ≠ .verbatim ∨ node.span.isSome → ¬ tree.Sourceless id := by
    rintro other ⟨again, there, verbatim, lacks⟩
    cases found.symm.trans there
    rcases other with other | read
    · exact other verbatim
    · rw [lacks] at read
      cases read
  have whole : ∀ {step : Except PrintError String}, node.shape.kind ≠ .verbatim →
      tree.Covers (node.shape.children.map Prod.snd) step → tree.Covers [id] step :=
    fun other covers => covers.node found (sourced (Or.inl other))
  unfold printCanonical
  cases shape : node.shape <;> rw [shape] at whole under
  case «verbatim» label parts =>
    have verbatim : node.shape.kind = .verbatim := by
      rw [shape]
      rfl
    cases spanned : node.span with
    | none => exact ⟨id, rfl, ⟨node, found, verbatim, spanned⟩, id, by simp, .self⟩
    | some span =>
        obtain ⟨laid, placed⟩ := sound span spanned
        have printed := printAround_covers each found laid (placed verbatim)
        exact printed.node found (sourced (Or.inr (by simp [spanned])))
  case methodCall object method arguments nullsafe =>
    have held : tree.shape? id = some (.methodCall object method arguments nullsafe) := by
      rw [shape?, found, Option.map_some, shape]
    exact printChain_covers each held filled
  -- The other kinds are never verbatim, and print their children one after the other.
  all_goals
    simp only [Shape.children, List.map_cons, List.map_nil, List.map_append, Shape.map_snd_tagged,
      List.forall_mem_cons, List.forall_mem_append, List.append_assoc, List.cons_append] at whole under
    refine whole (fun same => by cases same) ?_
  case program => exact printJoined_covers each under
  case block => exact printBlock_covers each under
  case argumentList => exact (printJoined_covers each under).finish fun _ => ⟨_, rfl⟩
  case array => exact (printJoined_covers each under).finish fun _ => by split <;> exact ⟨_, rfl⟩
  case expressionStatement | parenthesized | argument =>
    exact (each _ under.1 base).finish fun _ => ⟨_, rfl⟩
  case functionCall | classConstFetch =>
    exact (each _ under.1 base).bind fun _ _ =>
      (each _ under.2.1 base).finish fun _ => ⟨_, rfl⟩
  case staticCall =>
    exact (each _ under.1 base).bind fun _ _ =>
      (each _ under.2.1 base).bind fun _ _ =>
        (each _ under.2.2.1 base).finish fun _ => ⟨_, rfl⟩
  case name | «variable» | literal | raw => exact covers_pure _
  case new className arguments =>
    refine Covers.of_mem_iff (?_ : tree.Covers (arguments.toList ++ [className]) _) (by simp [or_comm])
    exact (printOptional_covers each under.2).bind fun _ _ =>
      (each className under.1 base).finish fun _ => ⟨_, rfl⟩
  case arrayItem key value unpack =>
    exact (printOptional_covers each under.1).bind fun _ _ =>
      (each value under.2.1 base).finish fun _ => ⟨_, rfl⟩
  case classMethod modifiers title parameters returnType body =>
    exact (each title under.1 base).bind fun _ _ =>
      (printJoined_covers each under.2.1).bind fun _ _ =>
        (printOptional_covers each under.2.2.1).bind fun _ _ =>
          (printOptional_covers each under.2.2.2).finish fun _ => ⟨_, rfl⟩
  case parameter hint byRef variadic holder default =>
    exact (printOptional_covers each under.1).bind fun _ _ =>
      (each holder under.2.1 base).bind fun _ _ =>
        (printOptional_covers each under.2.2).finish fun _ => ⟨_, rfl⟩

theorem printNode_covers {base : String} (found : tree.node? id = some node)
    (sound : node.Sound tree.source) (filled : 0 < tree.size) :
    tree.Covers [id] (tree.printNode options print id base) := by
  have canonical : tree.Covers [id] (tree.printCanonical options print id node base) :=
    printCanonical_covers each found sound filled
  simp only [printNode, found]
  cases spanned : node.span with
  | none => exact canonical
  | some span =>
      have sourced : ¬ tree.Sourceless id := by
        rintro ⟨again, there, _, lacks⟩
        cases found.symm.trans there
        rw [spanned] at lacks
        cases lacks
      obtain ⟨laid, _⟩ := sound span spanned
      dsimp only
      split
      · next pristine => exact (covers_pure _).skip fun other below => pristineTo_sourced pristine below
      · split
        · next kept =>
            -- The slots are as they were read, so every child has a place.
            have slots := eq_of_beq (Bool.and_eq_true_iff.mp kept).2
            have lengths : node.shape.children.length = node.layout.length := by
              simpa using congrArg List.length slots
            have printed := printAround_covers each found laid (Nat.le_of_eq lengths)
            exact printed.node found sourced
        · split
          · exact (printResized_covers each found).node found sourced
          · exact canonical

end

structure Sound (tree : Tree) : Prop where
  rooted : tree.contains tree.root
  nodes : ∀ {id node}, tree.node? id = some node → node.Sound tree.source

theorem printTo_covers (sound : tree.Sound) (held : tree.HeldOnce) (options : PrintOptions)
    {depth : Nat} {id : NodeId} {above : List NodeId} (path : tree.Path id above)
    (enough : tree.size ≤ depth + above.length) (base : String) :
    tree.Covers [id] (tree.printTo options depth id base) := by
  have inside := path.inside held sound.rooted
  have short := length_le_size (path.nodup held) inside
  rw [List.length_cons] at short
  induction depth generalizing id above base with
  | zero => omega
  | succ depth ih =>
      have present : id.index < tree.nodes.size := of_decide_eq_true (inside id List.mem_cons_self)
      have found : tree.node? id = some tree.nodes[id.index] := Array.getElem?_eq_getElem present
      have filled : 0 < tree.size := by omega
      refine printNode_covers ?_ found (sound.nodes found) filled
      rintro other ⟨child, holds, below⟩ base
      obtain ⟨longer, path, length⟩ := (Path.child path holds).down below
      rw [List.length_cons] at length
      have inside := path.inside held sound.rooted
      have short := length_le_size (path.nodup held) inside
      exact ih path (by omega) base inside short

theorem print_covers (sound : tree.Sound) (held : tree.HeldOnce) (options : PrintOptions) :
    tree.Covers [tree.root] (tree.print options) := by
  rw [print, (validate_ok_iff sound.rooted).mpr held]
  exact printTo_covers sound held options .root (Nat.le_refl _) ""

theorem print_refuses (sound : tree.Sound) (unheld : ¬ tree.HeldOnce) (options : PrintOptions) :
    ∃ error, Refusal error ∧ tree.print options = .error error := by
  rcases validate_cases sound.rooted with ⟨_, held⟩ | ⟨_, error, refusal, invalid⟩
  · exact absurd held unheld
  · refine ⟨error, refusal, ?_⟩
    rw [print, invalid]
    rfl

end Tree

end Codemod
