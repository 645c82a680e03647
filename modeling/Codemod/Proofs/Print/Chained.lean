import Codemod.Proofs.Print.Depth
import Codemod.Proofs.Print.Told

/-!
Chains of new calls. The calls that were not read and follow one another down the objects are printed
together: first what the innermost is called on, then every call, from the innermost out. Main
statement: so is every chain of a tree that prints, with no call left out, twice or out of place, and
the text of the whole chain stands in the text of the tree (`print_chain`).
-/

namespace Codemod.Tree

open Text (PartOf partOf_refl)

variable {tree : Tree} {options : PrintOptions}

def NewCall (tree : Tree) (id : NodeId) : Prop :=
  tree.kind? id = some .methodCall ∧ tree.span? id = none

/-- The new calls from a node down the objects, the innermost first, and the first node down there that
is none. -/
inductive CallChain (tree : Tree) : NodeId → NodeId → List (NodeId × ChainedCall) → Prop where
  | head {id : NodeId} (other : ¬ tree.NewCall id) : CallChain tree id id []
  | call {id object head : NodeId} {call : ChainedCall} {calls : List (NodeId × ChainedCall)}
      (found : tree.shape? id = some (.methodCall object call.method call.arguments call.nullsafe))
      (new : tree.span? id = none) (before : CallChain tree object head calls) :
      CallChain tree id head (calls ++ [(id, call)])

def callText (lead : String) (text : NodeId → String) (call : ChainedCall) : String :=
  lead ++ (if call.nullsafe then "?->" else "->") ++ text call.method ++ text call.arguments

/-- What a chain reads as: its head, in parentheses if that is a creation, then its calls in order, each
on a line of its own if there are more of them than the threshold. -/
def chainText (tree : Tree) (options : PrintOptions) (base : String) (text : NodeId → String)
    (head : NodeId) (calls : List ChainedCall) : String :=
  let lead := if options.chainThreshold < calls.length then "\n" ++ base ++ options.indent else ""
  (if tree.kind? head = some .new then "(" ++ text head ++ ")" else text head)
    ++ String.join (calls.map (callText lead text))

theorem newCall_iff {id : NodeId} : tree.NewCall id ↔
    ∃ object, ∃ call : ChainedCall,
      tree.shape? id = some (.methodCall object call.method call.arguments call.nullsafe)
        ∧ tree.span? id = none := by
  constructor
  · rintro ⟨kind, new⟩
    obtain ⟨shape, found, call⟩ := Option.map_eq_some_iff.mp kind
    cases shape <;> cases call
    exact ⟨_, ⟨_, _, _⟩, found, new⟩
  · rintro ⟨object, call, found, new⟩
    exact ⟨by simp [kind?, found, Shape.kind], new⟩

theorem object_mem {id object method arguments : NodeId} {nullsafe : Bool}
    (found : tree.shape? id = some (.methodCall object method arguments nullsafe)) :
    (Slot.object, object) ∈ tree.children id := by
  simp [children_methodCall found]

theorem NewCall.of_found {id object method arguments : NodeId} {nullsafe : Bool}
    (found : tree.shape? id = some (.methodCall object method arguments nullsafe))
    (new : tree.span? id = none) : tree.NewCall id :=
  newCall_iff.mpr ⟨object, ⟨method, arguments, nullsafe⟩, found, new⟩

namespace CallChain

variable {id head other : NodeId} {calls others : List (NodeId × ChainedCall)}

theorem unique (chain : tree.CallChain id head calls) (again : tree.CallChain id other others) :
    other = head ∧ others = calls := by
  induction chain generalizing other others with
  | head bare =>
      cases again with
      | head => exact ⟨rfl, rfl⟩
      | call found new => exact absurd (.of_found found new) bare
  | @call _ _ _ made _ found new _ ih =>
      cases again with
      | head bare => exact absurd (.of_found found new) bare
      | @call _ _ _ further _ same _ before =>
          cases made
          cases further
          cases found.symm.trans same
          obtain ⟨rfl, rfl⟩ := ih before
          exact ⟨rfl, rfl⟩

/-- The calls of a chain stand between its head and the nodes above it. -/
theorem path {above : List NodeId} (chain : tree.CallChain id head calls)
    (path : tree.Path id above) : tree.Path head (calls.map Prod.fst ++ above) := by
  induction chain generalizing above with
  | head => exact path
  | call found _ _ ih =>
      have down := ih (.child path (object_mem found))
      simpa using down

theorem of_mem (chain : tree.CallChain id head calls) {call : NodeId}
    (member : call ∈ calls.map Prod.fst) : tree.NewCall call ∧ tree.Below id call := by
  induction chain with
  | head => cases member
  | call found new _ ih =>
      simp only [List.map_append, List.map_cons, List.map_nil, List.mem_append,
        List.mem_singleton] at member
      rcases member with earlier | rfl
      · obtain ⟨called, below⟩ := ih earlier
        exact ⟨called, Below.trans (.child .self (object_mem found)) below⟩
      · exact ⟨.of_found found new, .self⟩

theorem self_mem (chain : tree.CallChain id head calls) (new : tree.NewCall id) :
    id ∈ calls.map Prod.fst := by
  cases chain with
  | head bare => exact absurd new bare
  | call => simp

theorem newCall (chain : tree.CallChain id head calls) {call : NodeId}
    (member : call ∈ calls.map Prod.fst) : tree.NewCall id := by
  cases chain with
  | head => cases member
  | call found new => exact .of_found found new

/-- A call of a chain is the last one, or the object of another. -/
theorem last_or_object (chain : tree.CallChain id head calls) {call : NodeId}
    (member : call ∈ calls.map Prod.fst) :
    call = id ∨ ∃ outer ∈ calls.map Prod.fst, (.object, call) ∈ tree.children outer := by
  induction chain with
  | head => cases member
  | call found _ _ ih =>
      simp only [List.map_append, List.map_cons, List.map_nil, List.mem_append,
        List.mem_singleton] at member ⊢
      rcases member with earlier | rfl
      · right
        rcases ih earlier with rfl | ⟨outer, among, holds⟩
        · exact ⟨_, Or.inr rfl, object_mem found⟩
        · exact ⟨outer, Or.inl among, holds⟩
      · exact Or.inl rfl

/-- The chain of a call of a chain is the beginning of it. -/
theorem split (chain : tree.CallChain id head calls) {call : NodeId}
    (member : call ∈ calls.map Prod.fst) :
    ∃ before after, calls = before ++ after ∧ tree.CallChain call head before := by
  induction chain with
  | head => cases member
  | @call id _ _ made calls found new before ih =>
      simp only [List.map_append, List.map_cons, List.map_nil, List.mem_append,
        List.mem_singleton] at member
      rcases member with earlier | rfl
      · obtain ⟨front, back, rfl, inner⟩ := ih earlier
        exact ⟨front, back ++ [(id, made)], by simp, inner⟩
      · exact ⟨_, [], by simp, .call found new before⟩

/-- What a call of a chain holds is another call of it, or printed for it. -/
theorem child (chain : tree.CallChain id head calls) {call : NodeId}
    (member : call ∈ calls.map Prod.fst) {held : Slot × NodeId} (holds : held ∈ tree.children call) :
    held.2 ∈ calls.map Prod.fst ∨ held.2 ∈ chained (head, calls.map Prod.snd) := by
  induction chain with
  | head => cases member
  | @call id object _ made calls found new before ih =>
      simp only [List.map_append, List.map_cons, List.map_nil, List.mem_append,
        List.mem_singleton, mem_chained_append] at member ⊢
      rcases member with earlier | rfl
      · rcases ih earlier with inner | printed
        · exact Or.inl (Or.inl inner)
        · exact Or.inr (Or.inl printed)
      · simp only [children_methodCall found, List.mem_cons, List.not_mem_nil, or_false] at holds
        rcases holds with rfl | rfl | rfl
        · cases before with
          | head => exact Or.inr (Or.inl (by simp [chained]))
          | call => exact Or.inl (Or.inl (by simp))
        · exact Or.inr (Or.inr (Or.inl rfl))
        · exact Or.inr (Or.inr (Or.inr rfl))

/-- The printer comes to the chain from the outside in. -/
theorem chain_eq (chain : tree.CallChain id head calls) (new : tree.NewCall id) {depth : Nat}
    (enough : calls.length ≤ depth) : tree.chain depth id = (head, calls.map Prod.snd) := by
  induction chain generalizing depth with
  | head bare => exact absurd new bare
  | @call id object head made calls found _ before ih =>
      rw [List.length_append, List.length_singleton] at enough
      obtain ⟨depth, rfl⟩ : ∃ less, depth = less + 1 := ⟨depth - 1, by omega⟩
      rw [Tree.chain, found]
      by_cases further : tree.NewCall object
      · have goes : ¬ (tree.kind? object ≠ some .methodCall ∨ (tree.span? object).isSome) := by
          simp [further.1, further.2]
        simp [if_neg goes, ih further (by omega : calls.length ≤ depth)]
      · have stops : tree.kind? object ≠ some .methodCall ∨ (tree.span? object).isSome := by
          by_contra goes
          simp only [not_or, not_not, Option.isSome_iff_ne_none] at goes
          exact further ⟨goes.1, by simpa using goes.2⟩
        cases before with
        | head => simp [if_pos stops]
        | call same new => exact absurd (.of_found same new) further

end CallChain

theorem exists_callChain (held : tree.HeldOnce) (rooted : tree.contains tree.root) {id : NodeId}
    {above : List NodeId} (path : tree.Path id above) : ∃ head calls, tree.CallChain id head calls := by
  -- Every call of the chain is one more node on the way down.
  generalize left : tree.size - above.length = steps
  induction steps generalizing id above with
  | zero =>
      have short := length_le_size (path.nodup held) (path.inside held rooted)
      rw [List.length_cons] at short
      omega
  | succ steps ih =>
      by_cases new : tree.NewCall id
      · obtain ⟨object, call, found, bare⟩ := newCall_iff.mp new
        obtain ⟨head, calls, before⟩ := ih (.child path (object_mem found))
          (by rw [List.length_cons]; omega)
        exact ⟨head, calls ++ [(id, call)], .call found bare before⟩
      · exact ⟨id, [], .head new⟩

theorem partOf_chainText {base : String} {text : NodeId → String} {head part : NodeId}
    {calls : List ChainedCall} (member : part ∈ chained (head, calls)) :
    PartOf (text part) (tree.chainText options base text head calls) := by
  rcases List.mem_cons.mp member with rfl | among
  · refine PartOf.left ?_ _
    split
    · exact ((partOf_refl (text part)).right _).left _
    · exact partOf_refl (text part)
  · obtain ⟨call, listed, held⟩ := List.mem_flatMap.mp among
    refine PartOf.right (PartOf.trans ?_ (Text.partOf_join (List.mem_map_of_mem listed))) _
    simp only [List.mem_cons, List.not_mem_nil, or_false] at held
    rcases held with rfl | rfl
    · exact ((partOf_refl (text call.method)).right _).left _
    · exact (partOf_refl (text call.arguments)).right _

section

variable {print : NodeId → String → Except PrintError String} {base lead : String}

theorem mapM_printCall {text : NodeId → String} {calls : List ChainedCall}
    (each : ∀ call ∈ calls, print call.method base = .ok (text call.method)
      ∧ print call.arguments base = .ok (text call.arguments)) :
    calls.mapM (printCall print base lead) = .ok (calls.map (callText lead text)) := by
  induction calls with
  | nil => rfl
  | cons call rest ih =>
      obtain ⟨⟨method, arguments⟩, later⟩ := List.forall_mem_cons.mp each
      rw [List.mapM_cons, ih later, printCall, method, arguments]
      rfl

theorem printed_of_mapM {calls : List ChainedCall} {texts : List String}
    (ran : calls.mapM (printCall print base lead) = .ok texts) :
    ∀ call ∈ calls, (∃ text, print call.method base = .ok text)
      ∧ ∃ text, print call.arguments base = .ok text := by
  induction calls generalizing texts with
  | nil => exact nofun
  | cons call rest ih =>
      rw [List.mapM_cons] at ran
      obtain ⟨_, here, later⟩ := bind_eq_ok.mp ran
      obtain ⟨_, further, _⟩ := bind_eq_ok.mp later
      obtain ⟨method, first, last⟩ := bind_eq_ok.mp here
      obtain ⟨arguments, second, _⟩ := bind_eq_ok.mp last
      exact List.forall_mem_cons.mpr ⟨⟨⟨method, first⟩, arguments, second⟩, ih further⟩

theorem printChain_eq_ok_iff {id head : NodeId} {calls : List ChainedCall}
    (chain : tree.chain tree.size id = (head, calls)) {whole : String} :
    tree.printChain options print id base = .ok whole ↔
      ∃ text : NodeId → String, (∀ part ∈ chained (head, calls), print part base = .ok (text part))
        ∧ whole = tree.chainText options base text head calls := by
  unfold printChain
  rw [chain]
  constructor
  · intro printed
    obtain ⟨front, first, printed⟩ := bind_eq_ok.mp printed
    obtain ⟨texts, ran, made⟩ := bind_eq_ok.mp printed
    -- One choice of texts serves all parts, also where a node is printed for two of them.
    obtain ⟨text, answers⟩ : ∃ text : NodeId → String, ∀ part answer,
        print part base = .ok answer → print part base = .ok (text part) := by
      refine ⟨fun part => (print part base).toOption.getD "", fun part answer shown => ?_⟩
      simp [shown, Except.toOption]
    have each : ∀ call ∈ calls, print call.method base = .ok (text call.method)
        ∧ print call.arguments base = .ok (text call.arguments) := by
      intro call listed
      obtain ⟨⟨_, method⟩, _, arguments⟩ := printed_of_mapM ran call listed
      exact ⟨answers _ _ method, answers _ _ arguments⟩
    have opens := answers _ _ first
    refine ⟨text, ?_, ?_⟩
    · refine List.forall_mem_cons.mpr ⟨opens, fun part member => ?_⟩
      obtain ⟨call, listed, held⟩ := List.mem_flatMap.mp member
      simp only [List.mem_cons, List.not_mem_nil, or_false] at held
      rcases held with rfl | rfl
      · exact (each call listed).1
      · exact (each call listed).2
    · rw [mapM_printCall each] at ran
      cases ran
      cases made
      cases first.symm.trans opens
      rfl
  · rintro ⟨text, each, rfl⟩
    obtain ⟨first, later⟩ := List.forall_mem_cons.mp each
    have calls : ∀ call ∈ calls, print call.method base = .ok (text call.method)
        ∧ print call.arguments base = .ok (text call.arguments) := by
      intro call listed
      constructor <;> exact later _ (List.mem_flatMap.mpr ⟨call, listed, by simp⟩)
    simp only [first, mapM_printCall calls, bind, Except.bind]
    rfl

end

-- A node prints as a text from an indentation, if the printer may go deep enough.
def Prints (tree : Tree) (options : PrintOptions) (id : NodeId) (base text : String) : Prop :=
  ∃ depth, tree.printTo options depth id base = .ok text

-- A node prints from some indentation, and its text stands in another.
def Shown (tree : Tree) (options : PrintOptions) (whole : String) (id : NodeId) : Prop :=
  ∃ base text, tree.Prints options id base text ∧ PartOf text whole

theorem Told.shown {depth : Nat} {text whole : String} {id : NodeId}
    (told : Told (tree.printTo options depth) text id) (part : PartOf text whole) :
    tree.Shown options whole id := by
  obtain ⟨base, inner, printed, within⟩ := told
  exact ⟨base, inner, ⟨depth, printed⟩, within.trans part⟩

theorem exists_depth {base : String} {text : NodeId → String} {parts : List NodeId}
    (each : ∀ part ∈ parts, tree.Prints options part base (text part)) :
    ∃ depth, ∀ part ∈ parts, tree.printTo options depth part base = .ok (text part) := by
  induction parts with
  | nil => exact ⟨0, nofun⟩
  | cons part rest ih =>
      obtain ⟨⟨first, printed⟩, later⟩ := List.forall_mem_cons.mp each
      obtain ⟨second, others⟩ := ih later
      refine ⟨max first second, List.forall_mem_cons.mpr ⟨?_, fun other member => ?_⟩⟩
      · exact printTo_yields (Nat.le_max_left ..) part base _ printed
      · exact printTo_yields (Nat.le_max_right ..) other base _ (others other member)

/-- A chain prints exactly where its head and all methods and arguments print, as their texts put
together. -/
theorem CallChain.prints_iff {id head : NodeId} {calls : List (NodeId × ChainedCall)}
    (chain : tree.CallChain id head calls) (new : tree.NewCall id)
    (short : calls.length ≤ tree.size) {base whole : String} :
    tree.Prints options id base whole ↔
      ∃ text : NodeId → String,
        (∀ part ∈ chained (head, calls.map Prod.snd), tree.Prints options part base (text part))
          ∧ whole = tree.chainText options base text head (calls.map Prod.snd) := by
  have steps : ∀ depth, tree.printTo options (depth + 1) id base
      = tree.printChain options (tree.printTo options depth) id base := by
    intro depth
    obtain ⟨object, call, found, bare⟩ := newCall_iff.mp new
    obtain ⟨node, there, shape⟩ := Option.map_eq_some_iff.mp found
    have unread : node.span = none := by simpa [span?, there] using bare
    simp only [printTo, printNode, there, unread, printCanonical, shape]
  have links := chain.chain_eq new short
  constructor
  · rintro ⟨depth, printed⟩
    cases depth with
    | zero => cases printed
    | succ depth =>
        rw [steps] at printed
        obtain ⟨text, each, made⟩ := (printChain_eq_ok_iff links).mp printed
        exact ⟨text, fun part member => ⟨depth, each part member⟩, made⟩
  · rintro ⟨text, each, made⟩
    obtain ⟨depth, printed⟩ := exists_depth each
    exact ⟨depth + 1, (steps depth).trans ((printChain_eq_ok_iff links).mpr ⟨text, printed, made⟩)⟩

def Renewed (tree : Tree) (id : NodeId) : Prop :=
  ∃ other, tree.Below id other ∧ tree.span? other = none

theorem Renewed.above {parent : NodeId} {child : Slot × NodeId} (renewed : tree.Renewed child.2)
    (held : child ∈ tree.children parent) : tree.Renewed parent := by
  obtain ⟨other, below, new⟩ := renewed
  exact ⟨other, Below.trans (.child .self held) below, new⟩

theorem Renewed.changed {id : NodeId} (renewed : tree.Renewed id) : ¬ tree.isPristine id := by
  intro pristine
  obtain ⟨other, below, new⟩ := renewed
  simpa [new] using pristineTo_spanned pristine below

def Continued (tree : Tree) (id : NodeId) : Prop :=
  ∃ outer, tree.Reaches outer ∧ tree.NewCall outer ∧ (.object, id) ∈ tree.children outer

variable {whole : String}

/-- The chain of a node that can be reached has no call twice, and not more of them than the arena. -/
theorem CallChain.listed {id head : NodeId} {calls : List (NodeId × ChainedCall)}
    (held : tree.HeldOnce) (rooted : tree.contains tree.root)
    (chain : tree.CallChain id head calls) (reached : tree.Reaches id) :
    (calls.map Prod.fst).Nodup ∧ calls.length ≤ tree.size := by
  obtain ⟨above, path, _⟩ := Path.down .root reached
  have down := chain.path path
  have apart := down.nodup held
  have short := length_le_size apart (down.inside held rooted)
  rw [List.nodup_cons, List.nodup_append] at apart
  refine ⟨apart.2.1, ?_⟩
  simp only [List.length_cons, List.length_append, List.length_map] at short
  omega

theorem CallChain.shown {top head : NodeId} {calls : List (NodeId × ChainedCall)}
    (chain : tree.CallChain top head calls) (new : tree.NewCall top)
    (short : calls.length ≤ tree.size) (shown : tree.Shown options whole top) :
    ∀ part ∈ chained (head, calls.map Prod.snd), tree.Shown options whole part := by
  obtain ⟨base, text, printed, within⟩ := shown
  obtain ⟨parts, each, rfl⟩ := (chain.prints_iff new short).mp printed
  exact fun part member => ⟨base, _, each part member, (partOf_chainText member).trans within⟩

theorem Shown.child (sited : tree.Every Node.Sited) {parent : NodeId}
    (shown : tree.Shown options whole parent) (old : ¬ tree.NewCall parent) {child : Slot × NodeId}
    (held : child ∈ tree.children parent) (renewed : tree.Renewed child.2) :
    tree.Shown options whole child.2 := by
  obtain ⟨base, text, ⟨depth, printed⟩, within⟩ := shown
  cases depth with
  | zero => cases printed
  | succ depth =>
      cases found : tree.node? parent with
      | none => simp [children, shape?, found] at held
      | some node =>
          have call : node.shape.kind = .methodCall → node.span.isSome := by
            intro kind
            rw [Option.isSome_iff_ne_none]
            exact fun new => old ⟨by simp [kind?, shape?, found, kind], by simp [span?, found, new]⟩
          have told := printNode_told found (sited parent node found) (renewed.above held).changed call
            printed child held renewed.changed
          exact told.shown within

/-- Every node with something new below it is shown, or is a call of a chain that is. -/
theorem shown_or_chained (sited : tree.Every Node.Sited) (held : tree.HeldOnce)
    (rooted : tree.contains tree.root) (printed : tree.Shown options whole tree.root) {id : NodeId}
    (reached : tree.Reaches id) (renewed : tree.Renewed id) :
    tree.Shown options whole id ∨ ∃ top head calls, tree.Reaches top
      ∧ tree.Shown options whole top ∧ tree.CallChain top head calls
      ∧ id ∈ calls.map Prod.fst := by
  induction reached with
  | self => exact Or.inl printed
  | @child parent id slot above holds ih =>
      -- A new call is shown with the chain that it is the last call of.
      have chains : tree.Shown options whole parent → tree.NewCall parent →
          ∃ top head calls, tree.Reaches top ∧ tree.Shown options whole top
            ∧ tree.CallChain top head calls ∧ parent ∈ calls.map Prod.fst := by
        intro shown new
        obtain ⟨ways, path, _⟩ := Path.down .root above
        obtain ⟨head, calls, chain⟩ := exists_callChain held rooted path
        exact ⟨parent, head, calls, above, shown, chain, chain.self_mem new⟩
      by_cases among : ∃ top head calls, tree.Reaches top ∧ tree.Shown options whole top
          ∧ tree.CallChain top head calls ∧ parent ∈ calls.map Prod.fst
      · obtain ⟨top, head, calls, higher, shown, chain, member⟩ := among
        rcases chain.child member holds with inner | part
        · exact Or.inr ⟨top, head, calls, higher, shown, chain, inner⟩
        · exact Or.inl (chain.shown (chain.newCall member) (chain.listed held rooted higher).2 shown
            id part)
      · have shown := (ih (renewed.above holds)).resolve_right among
        exact Or.inl (shown.child sited (fun new => among (chains shown new)) holds renewed)

theorem heldOnce_of_print (printed : tree.print options = .ok whole) :
    tree.contains tree.root ∧ tree.HeldOnce ∧ tree.Shown options whole tree.root := by
  obtain ⟨⟨⟩, valid, shown⟩ := bind_eq_ok.mp printed
  have rooted : tree.contains tree.root := by
    by_contra outside
    have none : tree.node? tree.root = none := by
      simpa [contains, node?] using outside
    cases size : tree.size <;> simp [size, printTo, printNode, none] at shown
  exact ⟨rooted, (validate_ok_iff rooted).mp valid, "", whole, ⟨tree.size, shown⟩, partOf_refl whole⟩

theorem Prints.unique {id : NodeId} {base text other : String}
    (printed : tree.Prints options id base text) (again : tree.Prints options id base other) :
    other = text := by
  obtain ⟨first, printed⟩ := printed
  obtain ⟨second, again⟩ := again
  have same := printTo_yields (Nat.le_max_left first second) id base text printed
  rw [printTo_yields (Nat.le_max_right first second) id base other again] at same
  exact Except.ok.inj same

/-- Whatever was edited, if the tree prints, every new call that can be reached has one chain, and no
call stands in it twice. From every indentation the call prints as the text of its head and then, in
order, of all calls of the chain; from some indentation it does print; and it is the end of its chain,
or its chain goes on, in a chain that prints as a part of the text of the tree. -/
theorem print_chain (made : tree.Reached) (printed : tree.print options = .ok whole) {id : NodeId}
    (reached : tree.Reaches id) (new : tree.NewCall id) :
    ∃ head calls, tree.CallChain id head calls
      ∧ (∀ other others, tree.CallChain id other others → other = head ∧ others = calls)
      ∧ (calls.map Prod.fst).Nodup
      ∧ (∀ base text, tree.Prints options id base text ↔
        ∃ parts : NodeId → String,
          (∀ part ∈ chained (head, calls.map Prod.snd), tree.Prints options part base (parts part))
            ∧ text = tree.chainText options base parts head (calls.map Prod.snd))
      ∧ (∃ base text, ∀ other, tree.Prints options id base other ↔ other = text)
      ∧ ∃ top later, tree.CallChain top head (calls ++ later) ∧ tree.Shown options whole top
        ∧ (¬ tree.Continued id → top = id) := by
  obtain ⟨rooted, held, shown⟩ := heldOnce_of_print printed
  obtain ⟨above, path, _⟩ := Path.down .root reached
  obtain ⟨head, calls, chain⟩ := exists_callChain held rooted path
  obtain ⟨nodup, short⟩ := chain.listed held rooted reached
  refine ⟨head, calls, chain, fun _ _ => chain.unique, nodup, fun _ _ => chain.prints_iff new short, ?_⟩
  obtain ⟨top, last, all, higher, shown, outer, member⟩ : ∃ top last all, tree.Reaches top
      ∧ tree.Shown options whole top ∧ tree.CallChain top last all ∧ id ∈ all.map Prod.fst := by
    rcases shown_or_chained made.sited held rooted shown reached ⟨id, .self, new.2⟩ with alone | among
    · exact ⟨id, head, calls, reached, alone, chain, chain.self_mem new⟩
    · exact among
  obtain ⟨front, later, rfl, inner⟩ := outer.split member
  obtain ⟨rfl, rfl⟩ := chain.unique inner
  constructor
  · -- The chain prints from where the longer one does, with the same parts.
    obtain ⟨base, text, prints, _⟩ := shown
    obtain ⟨parts, each, _⟩ :=
      (outer.prints_iff (outer.newCall member) (outer.listed held rooted higher).2).mp prints
    have own : tree.Prints options id base
        (tree.chainText options base parts last (front.map Prod.snd)) := by
      refine (chain.prints_iff new short).mpr ⟨parts, fun part among => each part ?_, rfl⟩
      simp only [chained, List.map_append, List.flatMap_append, List.mem_cons,
        List.mem_append] at among ⊢
      exact among.imp_right Or.inl
    exact ⟨base, _, fun other => ⟨fun again => own.unique again, fun same => same ▸ own⟩⟩
  · refine ⟨top, later, outer, shown, fun ends => ?_⟩
    rcases outer.last_or_object member with last | ⟨next, among, holds⟩
    · exact last.symm
    · obtain ⟨called, below⟩ := outer.of_mem among
      exact absurd ⟨next, higher.trans below, called, holds⟩ ends

-- The statement `$x;` with a chain of two new calls put in for the variable, one of them with a
-- chain of its own in its arguments.
def splitChain : Tree :=
  (Tree.ofProgram "<?php $x;" [.expression ⟨6, 9⟩ (.variable ⟨6, 8⟩)]).edited
    [.construct (.newInstance "A" none), .construct (.variableNode "$m"),
      .construct (.argumentsOf []), .construct (.methodCall ⟨6⟩ "b" ⟨7⟩),
      .construct (.argumentsOf [⟨9⟩]), .construct (.methodCall ⟨5⟩ "a" ⟨11⟩),
      .construct (.argumentsOf []), .construct (.name "c"),
      .alloc (.methodCall ⟨13⟩ ⟨15⟩ ⟨14⟩ true), .replace ⟨1⟩ ⟨16⟩]

/-- Two calls are more than the threshold, the one in the arguments is not. -/
theorem print_chain_split : splitChain.Reached
    ∧ (splitChain.print ⟨"\t", 1⟩).toOption
      = some "<?php (new A())\n\t->a($m->b())\n\t?->c();"
    ∧ splitChain.Reaches ⟨16⟩ ∧ splitChain.NewCall ⟨16⟩
    ∧ splitChain.CallChain ⟨16⟩ ⟨5⟩ [(⟨13⟩, ⟨⟨12⟩, ⟨11⟩, false⟩), (⟨16⟩, ⟨⟨15⟩, ⟨14⟩, true⟩)]
    ∧ ∃ base parts, (∀ part ∈ [⟨5⟩, ⟨12⟩, ⟨11⟩, ⟨15⟩, ⟨14⟩],
        splitChain.Prints ⟨"\t", 1⟩ part base (parts part))
      ∧ splitChain.Prints ⟨"\t", 1⟩ ⟨16⟩ base (splitChain.chainText ⟨"\t", 1⟩ base parts ⟨5⟩
        [⟨⟨12⟩, ⟨11⟩, false⟩, ⟨⟨15⟩, ⟨14⟩, true⟩]) := by
  have made : splitChain.Reached := (Reached.read _ _).edits _
  have printed : (splitChain.print ⟨"\t", 1⟩).toOption
      = some "<?php (new A())\n\t->a($m->b())\n\t?->c();" := by decide +kernel
  have root : splitChain.root = ⟨3⟩ := by decide +kernel
  have statement : (Slot.statement, (⟨2⟩ : NodeId)) ∈ splitChain.children ⟨3⟩ := by decide +kernel
  have expression : (Slot.expression, (⟨16⟩ : NodeId)) ∈ splitChain.children ⟨2⟩ := by
    decide +kernel
  have reached : splitChain.Reaches ⟨16⟩ := by
    rw [Reaches, root]
    exact .child (.child .self statement) expression
  have first : splitChain.shape? ⟨13⟩ = some (.methodCall ⟨5⟩ ⟨12⟩ ⟨11⟩ false) := by decide +kernel
  have second : splitChain.shape? ⟨16⟩ = some (.methodCall ⟨13⟩ ⟨15⟩ ⟨14⟩ true) := by decide +kernel
  have creation : splitChain.kind? ⟨5⟩ = some .new := by decide +kernel
  have new : splitChain.span? ⟨13⟩ = none ∧ splitChain.span? ⟨16⟩ = none := by decide +kernel
  have inner : splitChain.CallChain ⟨13⟩ ⟨5⟩ [(⟨13⟩, ⟨⟨12⟩, ⟨11⟩, false⟩)] :=
    @CallChain.call _ _ _ _ ⟨_, _, _⟩ [] first new.1
      (.head fun call => nomatch creation.symm.trans call.1)
  have chain := @CallChain.call _ _ _ _ ⟨_, _, _⟩ _ second new.2 inner
  have called : splitChain.NewCall ⟨16⟩ := .of_found second new.2
  refine ⟨made, printed, reached, called, chain, ?_⟩
  cases ended : splitChain.print ⟨"\t", 1⟩ with
  | error error =>
      rw [ended] at printed
      cases printed
  | ok whole =>
      obtain ⟨head, calls, _, only, _, reads, ⟨base, text, prints⟩, _⟩ :=
        print_chain made ended reached called
      obtain ⟨rfl, rfl⟩ := only _ _ chain
      obtain ⟨parts, each, rfl⟩ := (reads base text).mp ((prints text).mpr rfl)
      exact ⟨base, parts, each, (prints _).mpr rfl⟩

end Codemod.Tree
