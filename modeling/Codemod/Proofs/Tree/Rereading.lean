import Codemod.Catalog.Rename
import Codemod.Proofs.Catalog.Calls
import Codemod.Proofs.Catalog.Chains

/-!
A tree and the tree that its text is read as. The second has a node for each node of the first, its
twin, and nodes of its own only where the text must say more than the tree: parentheses around a new
object on which a method is called, and an empty list behind a class without one. What rules ask
about a call has the same answer in both trees.
-/

namespace Codemod

def Shape.map (twin : NodeId → NodeId) : Shape → Shape
  | .program statements => .program (statements.map twin)
  | .verbatim label parts => .verbatim label (parts.map twin)
  | .expressionStatement expression => .expressionStatement (twin expression)
  | .block statements => .block (statements.map twin)
  | .functionCall callee arguments => .functionCall (twin callee) (twin arguments)
  | .methodCall object method arguments nullsafe =>
      .methodCall (twin object) (twin method) (twin arguments) nullsafe
  | .staticCall className method arguments =>
      .staticCall (twin className) (twin method) (twin arguments)
  | .new className arguments => .new (twin className) (arguments.map twin)
  | .argumentList arguments => .argumentList (arguments.map twin)
  | .argument label unpack value => .argument label unpack (twin value)
  | .array items legacy => .array (items.map twin) legacy
  | .arrayItem key value unpack => .arrayItem (key.map twin) (twin value) unpack
  | .parenthesized expression => .parenthesized (twin expression)
  | .classConstFetch className constant => .classConstFetch (twin className) (twin constant)
  | .classMethod modifiers title parameters returnType body =>
      .classMethod modifiers (twin title) (parameters.map twin) (returnType.map twin)
        (body.map twin)
  | .parameter hint byRef variadic holder default =>
      .parameter (hint.map twin) byRef variadic (twin holder) (default.map twin)
  | .name value => .name value
  | .variable spelling => .variable spelling
  | .literal value => .literal value
  | .raw text => .raw text

theorem Shape.kind_map (twin : NodeId → NodeId) (shape : Shape) :
    (shape.map twin).kind = shape.kind := by
  cases shape <;> rfl

theorem Shape.children_map (twin : NodeId → NodeId) (shape : Shape) :
    (shape.map twin).children = shape.children.map fun child => (child.1, twin child.2) := by
  have listed (slot : Slot) (ids : List NodeId) :
      tagged slot (ids.map twin) = (tagged slot ids).map fun child => (child.1, twin child.2) := by
    simp [tagged]
  cases shape with
  | new className arguments => cases arguments <;> rfl
  | arrayItem key value unpack => cases key <;> rfl
  | parameter hint byRef variadic holder default => cases hint <;> cases default <;> rfl
  | classMethod modifiers title parameters returnType body =>
      cases returnType <;> cases body <;> simp [map, children, listed] <;> rfl
  | program statements | block statements => exact listed ..
  | verbatim label parts => exact listed ..
  | argumentList arguments => exact listed ..
  | array items legacy => exact listed ..
  | _ => rfl

namespace Tree

/-- Where the text says more than the tree: around a new object that a method is called on, behind a
class without a list of arguments, and for the code of a value that is missing. -/
def spellsOut (tree again : Tree) (twin : NodeId → NodeId) : Shape → Shape → Bool
  | .methodCall object method arguments nullsafe, .methodCall outer selector list chained =>
      tree.kind? object == some .new && again.shape? outer == some (.parenthesized (twin object))
        && selector == twin method && list == twin arguments && chained == nullsafe
  | .new className none, .new other (some list) =>
      other == twin className && again.shape? list == some (.argumentList [])
  | .raw text, .literal literal => text == "null" && literal == ⟨.null, "null"⟩
  | _, _ => false

def readsBack (tree again : Tree) (twin : NodeId → NodeId) (id : NodeId) : Bool :=
  match tree.shape? id, again.shape? (twin id) with
  | some shape, some other => other == shape.map twin || tree.spellsOut again twin shape other
  | _, _ => false

/-- The second tree is what the text of the first one reads as. -/
structure Rereads (tree again : Tree) (twin : NodeId → NodeId) : Prop where
  root : twin tree.root = again.root
  nodes : ∀ id ∈ tree.descendants tree.root, tree.readsBack again twin id = true

inductive Reread (tree again : Tree) (twin : NodeId → NodeId) : Shape → Shape → Prop
  | same (shape : Shape) : Reread tree again twin shape (shape.map twin)
  | object {object method arguments outer : NodeId} {nullsafe : Bool}
      (created : tree.kind? object = some .new)
      (encloses : again.shape? outer = some (.parenthesized (twin object))) :
      Reread tree again twin (.methodCall object method arguments nullsafe)
        (.methodCall outer (twin method) (twin arguments) nullsafe)
  | list {className list : NodeId} (empty : again.shape? list = some (.argumentList [])) :
      Reread tree again twin (.new className none) (.new (twin className) (some list))
  | null : Reread tree again twin (.raw "null") (.literal ⟨.null, "null"⟩)

variable {tree again : Tree} {twin : NodeId → NodeId}

theorem reread_of_spellsOut {shape other : Shape}
    (spells : tree.spellsOut again twin shape other = true) : Reread tree again twin shape other := by
  unfold spellsOut at spells
  split at spells
  · simp only [Bool.and_eq_true, beq_iff_eq] at spells
    obtain ⟨⟨⟨⟨created, encloses⟩, rfl⟩, rfl⟩, rfl⟩ := spells
    exact .object created encloses
  · simp only [Bool.and_eq_true, beq_iff_eq] at spells
    obtain ⟨rfl, empty⟩ := spells
    exact .list empty
  · simp only [Bool.and_eq_true, beq_iff_eq] at spells
    obtain ⟨rfl, rfl⟩ := spells
    exact .null
  · cases spells

-- Every node that can be reached is read back as its twin.
def Mirrors (tree again : Tree) (twin : NodeId → NodeId) : Prop :=
  ∀ {id}, tree.Reaches id → ∃ shape other, tree.shape? id = some shape
    ∧ again.shape? (twin id) = some other ∧ Reread tree again twin shape other

theorem Rereads.mirrors (rereads : tree.Rereads again twin) (tidy : tree.Tidy tree.root)
    (inside : tree.contains tree.root) : tree.Mirrors again twin := by
  intro id reached
  have back := rereads.nodes id ((tidy.mem_descendants inside).mpr reached)
  unfold readsBack at back
  split at back
  · next shape other here there =>
      refine ⟨shape, other, here, there, ?_⟩
      rcases Bool.or_eq_true_iff.mp back with same | spells
      · obtain rfl := eq_of_beq same
        exact .same shape
      · exact reread_of_spellsOut spells
  · cases back

theorem nameSlot?_ne {kind : Kind} {slot : Slot} (spells : nameSlot? kind = some slot) :
    slot ≠ .object ∧ slot ≠ .constructorArguments := by
  cases kind <;> cases spells <;> exact ⟨nofun, nofun⟩

theorem reaches_argument {call argument : NodeId} (reached : tree.Reaches call)
    (member : argument ∈ tree.arguments call) : tree.Reaches argument := by
  obtain ⟨list, held, same⟩ := list_of_argument member
  rw [same] at member
  exact .child (.child reached (child_of_child? held)) (mem_childrenIn.mp member)

namespace Mirrors

variable (mirrors : tree.Mirrors again twin) {id : NodeId} (reached : tree.Reaches id)

include mirrors reached

/-- Only the slots that the text may fill differently are left out. -/
theorem childrenIn {slot : Slot} (object : slot ≠ .object) (list : slot ≠ .constructorArguments) :
    again.childrenIn (twin id) slot = (tree.childrenIn id slot).map twin := by
  obtain ⟨shape, other, here, there, reread⟩ := mirrors reached
  rw [Tree.childrenIn, Tree.childrenIn, children_of_shape? here, children_of_shape? there]
  cases reread with
  | same => simp [Shape.children_map, List.filter_map, Function.comp_def]
  | object => simp [Shape.children, List.filter_cons, Ne.symm object]; split <;> split <;> simp
  | list => simp [Shape.children, Shape.tagged, List.filter_cons, Ne.symm list]; split <;> simp
  | null => rfl

theorem child? {slot : Slot} (object : slot ≠ .object) (list : slot ≠ .constructorArguments) :
    again.child? (twin id) slot = (tree.child? id slot).map twin := by
  rw [Tree.child?, Tree.child?, mirrors.childrenIn reached object list, List.head?_map]

/-- What only depends on the kind of a node, and takes no literal for code. -/
theorem kind?_bind {α : Type} (answer : Kind → Option α) (alike : answer .literal = answer .raw) :
    (again.kind? (twin id)).bind answer = (tree.kind? id).bind answer := by
  obtain ⟨shape, other, here, there, reread⟩ := mirrors reached
  rw [kind?_of_shape? here, kind?_of_shape? there, Option.bind_some, Option.bind_some]
  cases reread with
  | same => rw [Shape.kind_map]
  | object | list => rfl
  | null => exact alike

theorem kind?_iff {kind : Kind} (literal : kind ≠ .literal) (raw : kind ≠ .raw) :
    again.kind? (twin id) = some kind ↔ tree.kind? id = some kind := by
  obtain ⟨shape, other, here, there, reread⟩ := mirrors reached
  rw [kind?_of_shape? here, kind?_of_shape? there]
  cases reread with
  | same => rw [Shape.kind_map]
  | object | list => rfl
  | null => exact iff_of_false (literal ∘ Eq.symm ∘ Option.some.inj) (raw ∘ Eq.symm ∘ Option.some.inj)

theorem created_iff : again.kind? (twin id) = some .new ↔ tree.kind? id = some .new :=
  mirrors.kind?_iff reached nofun nofun

theorem spelledName? : again.spelledName? (twin id) = tree.spelledName? id := by
  obtain ⟨shape, other, here, there, reread⟩ := mirrors reached
  rw [Tree.spelledName?, Tree.spelledName?, here, there]
  cases reread with
  | same => cases shape <;> rfl
  | object | list | null => rfl

theorem nameOf? : again.nameOf? (twin id) = tree.nameOf? id := by
  obtain ⟨shape, other, here, there, reread⟩ := mirrors reached
  rw [Tree.nameOf?, Tree.nameOf?, here, there]
  cases reread with
  | same => cases shape <;> rfl
  | object | list | null => rfl

theorem spelledIn {slot : Slot} (object : slot ≠ .object) (list : slot ≠ .constructorArguments) :
    (again.child? (twin id) slot).bind again.spelledName?
      = (tree.child? id slot).bind tree.spelledName? := by
  rw [mirrors.child? reached object list]
  cases held : tree.child? id slot with
  | none => rfl
  | some child => exact mirrors.spelledName? (.child reached (child_of_child? held))

theorem callName? : again.callName? (twin id) = tree.callName? id := by
  have split (tree : Tree) (id : NodeId) : tree.callName? id
      = ((tree.kind? id).bind nameSlot?).bind fun slot =>
        (tree.child? id slot).bind tree.spelledName? := by
    unfold Tree.callName?
    cases tree.kind? id with
    | none => rfl
    | some kind => cases kind <;> rfl
  rw [split, split, mirrors.kind?_bind reached nameSlot? rfl]
  cases named : (tree.kind? id).bind nameSlot? with
  | none => rfl
  | some slot =>
      obtain ⟨kind, _, spells⟩ := Option.bind_eq_some_iff.mp named
      exact mirrors.spelledIn reached (nameSlot?_ne spells).1 (nameSlot?_ne spells).2

theorem instantiatedClass? : again.instantiatedClass? (twin id) = tree.instantiatedClass? id :=
  mirrors.spelledIn reached nofun nofun

theorem accepts (target : CallTarget) : target.accepts again (twin id) = target.accepts tree id := by
  have wanted := mirrors.kind?_bind reached target.wanted? (by cases target <;> rfl)
  rw [CallTarget.accepts, CallTarget.accepts, wanted, mirrors.callName? reached]

theorem listSlot : again.listSlot (twin id) = tree.listSlot id := by
  rw [Tree.listSlot, Tree.listSlot]
  exact if_congr (mirrors.created_iff reached) rfl rfl

/-- A class without a list has no arguments, and the list behind its twin is empty. -/
theorem list? : again.child? (twin id) (tree.listSlot id) = (tree.child? id (tree.listSlot id)).map twin
    ∨ tree.arguments id = [] ∧ again.arguments (twin id) = [] := by
  by_cases created : tree.kind? id = some .new
  · rw [Tree.listSlot, if_pos created]
    obtain ⟨shape, other, here, there, reread⟩ := mirrors reached
    have kind := (kind?_of_shape? here).symm.trans created
    cases reread with
    | same =>
        left
        rw [Tree.child?, Tree.child?, Tree.childrenIn, Tree.childrenIn, children_of_shape? here,
          children_of_shape? there]
        simp [Shape.children_map, List.filter_map, Function.comp_def]
    | object => cases kind
    | list empty =>
        right
        constructor
        · simp [Tree.arguments, created, Tree.child?, Tree.childrenIn, children_of_shape? here,
            Shape.children, Shape.tagged]
        · simp [Tree.arguments, kind?_of_shape? there, Shape.kind, Tree.child?, Tree.childrenIn,
            children_of_shape? there, children_of_shape? empty, Shape.children, Shape.tagged]
    | null => cases kind
  · rw [Tree.listSlot, if_neg created]
    exact Or.inl (mirrors.child? reached (by decide) (by decide))

theorem arguments : again.arguments (twin id) = (tree.arguments id).map twin := by
  rcases mirrors.list? reached with held | ⟨none, empty⟩
  · have slot := mirrors.listSlot reached
    cases listed : tree.child? id (tree.listSlot id) with
    | none =>
        have missing : again.child? (twin id) (again.listSlot (twin id)) = none := by
          rw [slot, held, listed, Option.map_none]
        rw [arguments_of_none listed, arguments_of_none missing, List.map_nil]
    | some list =>
        have given : again.child? (twin id) (again.listSlot (twin id)) = some (twin list) := by
          rw [slot, held, listed, Option.map_some]
        rw [arguments_of_list listed, arguments_of_list given]
        exact mirrors.childrenIn (.child reached (child_of_child? listed)) (by decide) (by decide)
  · rw [none, empty, List.map_nil]

theorem positionalValue? (position : Nat) :
    again.positionalValue? (twin id) position = (tree.positionalValue? id position).map twin := by
  rw [Tree.positionalValue?, Tree.positionalValue?, mirrors.arguments reached, List.getElem?_map]
  cases listed : (tree.arguments id)[position]? with
  | none => rfl
  | some argument =>
      obtain ⟨shape, other, here, there, reread⟩ :=
        mirrors (reaches_argument reached (List.mem_of_getElem? listed))
      rw [Option.map_some, Option.bind_eq_bind, Option.bind_some, Option.bind_some, here, there]
      cases reread with
      | same =>
          cases shape with
          | argument label unpack value => cases label <;> cases unpack <;> rfl
          | _ => rfl
      | object | list | null => rfl

theorem stringValue : again.stringValue (twin id) = tree.stringValue id := by
  obtain ⟨shape, other, here, there, reread⟩ := mirrors reached
  rw [Tree.stringValue, Tree.stringValue, here, there]
  cases reread with
  | same => cases shape <;> rfl
  | object | list => rfl
  | null => decide

end Mirrors

/-- A node that is the twin of none: parentheses around a new object, or an empty list. -/
inductive Added (tree again : Tree) (twin : NodeId → NodeId) (top id : NodeId) : Prop
  | parentheses {object : NodeId} (below : tree.Below top object)
      (created : tree.kind? object = some .new)
      (shape : again.shape? id = some (.parenthesized (twin object)))
  | list (shape : again.shape? id = some (.argumentList []))

namespace Mirrors

variable (mirrors : tree.Mirrors again twin) {top id : NodeId} (reached : tree.Reaches top)

include mirrors reached

/-- A child has its twin below that of its parent, where parentheses may stand between. -/
theorem held {slot : Slot} {child : NodeId} (held : (slot, child) ∈ tree.children top) :
    ∃ holder place, again.Below (twin top) holder ∧ (place, twin child) ∈ again.children holder := by
  obtain ⟨shape, other, here, there, reread⟩ := mirrors reached
  rw [children_of_shape? here] at held
  have beside := children_of_shape? there
  cases reread with
  | same =>
      refine ⟨twin top, slot, .self, ?_⟩
      rw [beside, Shape.children_map]
      exact List.mem_map_of_mem (f := fun child => (child.1, twin child.2)) held
  | @object object method arguments outer nullsafe created encloses =>
      have inner := children_of_shape? encloses
      simp only [Shape.children, List.mem_cons, List.not_mem_nil, or_false, Prod.mk.injEq] at held
      rcases held with ⟨rfl, rfl⟩ | ⟨rfl, rfl⟩ | ⟨rfl, rfl⟩
      · refine ⟨outer, .expression, .child .self (?_ : (Slot.object, outer) ∈ _), ?_⟩
        · simp [beside, Shape.children]
        · simp [inner, Shape.children]
      · exact ⟨twin top, .method, .self, by simp [beside, Shape.children]⟩
      · exact ⟨twin top, .arguments, .self, by simp [beside, Shape.children]⟩
  | list =>
      obtain ⟨rfl, rfl⟩ : slot = .className ∧ child = _ := by
        simpa [Shape.children, Shape.tagged] using held
      exact ⟨twin top, .className, .self, by simp [beside, Shape.children]⟩
  | null => cases held

theorem below (below : tree.Below top id) : again.Below (twin top) (twin id) := by
  induction below with
  | self => exact .self
  | child above held ih =>
      obtain ⟨holder, place, under, stands⟩ := mirrors.held (reached.trans above) held
      exact .child (ih.trans under) stands

/-- What is below a twin is a twin itself, or was added. -/
theorem of_below {place : NodeId} (below : again.Below (twin top) place) :
    (∃ id, tree.Below top id ∧ twin id = place) ∨ tree.Added again twin top place := by
  induction below with
  | self => exact Or.inl ⟨top, .self, rfl⟩
  | @child parent place slot _ held ih =>
      rcases ih with ⟨id, above, rfl⟩ | added
      · obtain ⟨shape, other, here, there, reread⟩ := mirrors (reached.trans above)
        rw [children_of_shape? there] at held
        have stands : ∀ child ∈ shape.children, tree.Below top child.2 := by
          rw [← children_of_shape? here]
          exact fun child => .child above
        cases reread with
        | same =>
            rw [Shape.children_map] at held
            obtain ⟨child, member, same⟩ := List.mem_map.mp held
            cases same
            exact Or.inl ⟨child.2, stands child member, rfl⟩
        | @object object method arguments outer nullsafe created encloses =>
            simp only [Shape.children, List.mem_cons, List.not_mem_nil, or_false, Prod.mk.injEq]
              at held
            rcases held with ⟨rfl, rfl⟩ | ⟨rfl, rfl⟩ | ⟨rfl, rfl⟩
            · have under := stands (.object, object) (by simp [Shape.children])
              exact Or.inr (.parentheses under created encloses)
            · exact Or.inl ⟨method, stands (.method, method) (by simp [Shape.children]), rfl⟩
            · exact Or.inl ⟨arguments, stands (.arguments, arguments) (by simp [Shape.children]), rfl⟩
        | @list className _ empty =>
            simp only [Shape.children, Shape.tagged, Option.toList_some, List.map_cons, List.map_nil,
              List.mem_cons, List.not_mem_nil, or_false, Prod.mk.injEq] at held
            rcases held with ⟨rfl, rfl⟩ | ⟨rfl, rfl⟩
            · exact Or.inl ⟨className, stands (.className, className) (by simp [Shape.children]), rfl⟩
            · exact Or.inr (.list empty)
        | null => cases held
      · -- Parentheses hold a twin, and an added list holds nothing.
        cases added with
        | @parentheses object inside _ shape =>
            rw [children_of_shape? shape] at held
            cases List.mem_singleton.mp held
            exact Or.inl ⟨object, inside, rfl⟩
        | list shape =>
            rw [children_of_shape? shape] at held
            cases held

end Mirrors

/-- A way down is shorter than the arena is large. -/
theorem Path.length_lt {id : NodeId} {above : List NodeId} (path : tree.Path id above)
    (held : tree.HeldOnce) (rooted : tree.contains tree.root) : above.length < tree.size :=
  length_le_size (path.nodup held) (path.inside held rooted)

theorem getLast?_twin {ids : List NodeId} {id : NodeId} (member : id ∈ ids)
    (nodup : (ids.map twin).Nodup) :
    (ids.map twin).getLast? = some (twin id) ↔ ids.getLast? = some id := by
  rw [List.getLast?_map]
  constructor
  · intro last
    obtain ⟨other, ends, same⟩ := Option.map_eq_some_iff.mp last
    have differ := List.inj_on_of_nodup_map nodup
    rw [ends, differ (List.mem_of_getLast? ends) member same]
  · intro last
    rw [last, Option.map_some]

namespace Mirrors

variable (mirrors : tree.Mirrors again twin) (root : twin tree.root = again.root)
variable (tidy : tree.Tidy tree.root) (aligned : again.Tidy again.root)

include mirrors root

theorem reaches {id : NodeId} (reached : tree.Reaches id) : again.Reaches (twin id) := by
  rw [Tree.Reaches, ← root]
  exact mirrors.below .self reached

theorem path {id : NodeId} {above : List NodeId} (path : tree.Path id above) :
    ∃ longer, again.Path (twin id) longer ∧ above.length ≤ longer.length := by
  induction path with
  | root => exact ⟨[], root ▸ .root, Nat.le_refl _⟩
  | child path held ih =>
      obtain ⟨longer, down, length⟩ := ih
      obtain ⟨holder, place, under, stands⟩ := mirrors.held path.reaches held
      obtain ⟨further, way, more⟩ := down.down under
      exact ⟨_, .child way stands, Nat.succ_le_succ (Nat.le_trans length more)⟩

include tidy aligned

/-- One step up, where the answer for the node above is only asked for a part of a type. -/
theorem inTypePosition_step {parent id : NodeId} {slot : Slot} (reached : tree.Reaches parent)
    (held : (slot, id) ∈ tree.children parent) {depth length : Nat}
    (above : ∀ parts, tree.shape? parent = some (.verbatim "type" parts) →
      again.inTypePosition length (twin parent) = tree.inTypePosition depth parent) :
    again.inTypePosition (length + 1) (twin id) = tree.inTypePosition (depth + 1) id := by
  have names := tidy.named reached held
  have reaches := mirrors.reaches root reached
  obtain ⟨shape, other, here, there, reread⟩ := mirrors reached
  rw [children_of_shape? here] at held
  have beside := children_of_shape? there
  rw [inTypePosition, inTypePosition, names]
  cases reread with
  | same =>
      have stands : (slot, twin id) ∈ again.children (twin parent) := by
        rw [beside, Shape.children_map]
        exact List.mem_map_of_mem (f := fun child => (child.1, twin child.2)) held
      rw [aligned.named reaches stands]
      cases slot with
      | part =>
          dsimp only
          rw [here, there]
          cases shape with
          | verbatim label parts =>
              have member : id ∈ parts := (Shape.mem_tagged.mp held).2
              have nodup := (aligned.keeps reaches).nodup_tagged beside
              dsimp only [Shape.map]
              by_cases type : label = "type"
              · subst type
                exact above parts here
              · -- No two parts have the same twin, so that of the last part is the last one.
                have last : ((parts.map twin).getLast? != some (twin id))
                    = (parts.getLast? != some id) := by
                  rw [Bool.eq_iff_iff, bne_iff_ne, bne_iff_ne]
                  exact not_congr (getLast?_twin member nodup)
                rw [if_neg type, if_neg type, last]
          | _ => rfl
      | _ => rfl
  | @object object method arguments outer nullsafe created encloses =>
      rw [Shape.children] at beside
      have inner : (Slot.object, outer) ∈ again.children (twin parent) := by simp [beside]
      have named : (Slot.method, twin method) ∈ again.children (twin parent) := by simp [beside]
      have listed : (Slot.arguments, twin arguments) ∈ again.children (twin parent) := by simp [beside]
      have within : (Slot.expression, twin object) ∈ again.children outer := by
        simp [children_of_shape? encloses, Shape.children]
      simp only [Shape.children, List.mem_cons, List.not_mem_nil, or_false, Prod.mk.injEq] at held
      rcases held with ⟨rfl, rfl⟩ | ⟨rfl, rfl⟩ | ⟨rfl, rfl⟩
      · rw [aligned.named (.child reaches inner) within]
      · rw [aligned.named reaches named]
      · rw [aligned.named reaches listed]
  | list =>
      obtain ⟨rfl, rfl⟩ : slot = .className ∧ id = _ := by
        simpa [Shape.children, Shape.tagged] using held
      have stands : (Slot.className, twin id) ∈ again.children (twin parent) := by
        simp [beside, Shape.children]
      rw [aligned.named reaches stands]
  | null => cases held

/-- The way up ends below the program at the root, which is no part of a type. -/
theorem inTypePosition_child (rooted : tree.kind? tree.root = some .program) {parent id : NodeId}
    {slot : Slot} {above : List NodeId} (path : tree.Path parent above)
    (held : (slot, id) ∈ tree.children parent) {depth length : Nat} (deep : above.length < depth)
    (long : above.length < length) :
    again.inTypePosition length (twin id) = tree.inTypePosition depth id := by
  induction path generalizing slot id depth length with
  | root =>
      obtain ⟨depth, rfl⟩ := Nat.exists_eq_succ_of_ne_zero (Nat.ne_of_gt deep)
      obtain ⟨length, rfl⟩ := Nat.exists_eq_succ_of_ne_zero (Nat.ne_of_gt long)
      apply mirrors.inTypePosition_step root tidy aligned .self held
      intro parts part
      cases (kind?_of_shape? part).symm.trans rooted
  | child path holds ih =>
      rw [List.length_cons] at deep long
      obtain ⟨depth, rfl⟩ := Nat.exists_eq_succ_of_ne_zero (Nat.ne_zero_of_lt deep)
      obtain ⟨length, rfl⟩ := Nat.exists_eq_succ_of_ne_zero (Nat.ne_zero_of_lt long)
      apply mirrors.inTypePosition_step root tidy aligned (.child path.reaches holds) held
      exact fun _ _ => ih holds (Nat.lt_of_succ_lt_succ deep) (Nat.lt_of_succ_lt_succ long)

theorem inTypePosition (rooted : tree.kind? tree.root = some .program) {id : NodeId}
    (reached : tree.Reaches id) (other : tree.kind? id ≠ some .program) :
    again.inTypePosition again.size (twin id) = tree.inTypePosition tree.size id := by
  have program : again.kind? again.root = some .program := by
    rw [← root]
    exact (mirrors.kind?_iff .self (by decide) (by decide)).mpr rooted
  cases reached with
  | self => exact absurd rooted other
  | child above held =>
      -- No way down is as long as the arena is large.
      obtain ⟨way, path, _⟩ := Path.root.down above
      obtain ⟨longer, down, length⟩ := mirrors.path root path
      have deep := path.length_lt (heldOnce_iff_tidy.mpr tidy) (contains_of_kind? rooted)
      have long := down.length_lt (heldOnce_iff_tidy.mpr aligned) (contains_of_kind? program)
      exact mirrors.inTypePosition_child root tidy aligned rooted path held deep
        (Nat.lt_of_le_of_lt length long)

end Mirrors

end Tree

end Codemod
