import Codemod.Proofs.Edit.Course
import Codemod.Tree.Build

/-!
Edits as data, so that a history of edits is a list. Main statement: what every elementary change of
a tree respects, every list of edits respects, whether the edits answer, are refused or stop
part-way (`Respected.edited`).
-/

namespace Codemod

inductive Construction where
  | name (value : String)
  | variableNode (spelling : String)
  | stringLiteral (value : String)
  | raw (text : String)
  | argument (value : NodeId)
  | argumentList (arguments : List NodeId)
  | argumentsOf (values : List NodeId)
  | functionCall (callee : String) (arguments : NodeId)
  | methodCall (object : NodeId) (method : String) (arguments : NodeId)
  | staticCall (className method : String) (arguments : NodeId)
  | newInstance (className : String) (arguments : Option NodeId)
  | parenthesized (expression : NodeId)
  | classConstFetch (className constant : String)
  | array (items : List NodeId)
  | arrayItem (key : Option NodeId) (value : NodeId)

def Construction.run : Construction → Edit NodeId
  | .name value => Edit.name value
  | .variableNode spelling => Edit.variableNode spelling
  | .stringLiteral value => Edit.stringLiteral value
  | .raw text => Edit.raw text
  | .argument value => Edit.argument value
  | .argumentList arguments => Edit.argumentList arguments
  | .argumentsOf values => Edit.argumentsOf values
  | .functionCall callee arguments => Edit.functionCall callee arguments
  | .methodCall object method arguments => Edit.methodCall object method arguments
  | .staticCall className method arguments => Edit.staticCall className method arguments
  | .newInstance className arguments => Edit.newInstance className arguments
  | .parenthesized expression => Edit.parenthesized expression
  | .classConstFetch className constant => Edit.classConstFetch className constant
  | .array items => Edit.array items
  | .arrayItem key value => Edit.arrayItem key value

inductive Operation where
  | alloc (shape : Shape)
  | construct (construction : Construction)
  | setName (id : NodeId) (value : String)
  | setLeaf (id : NodeId) (shape : Shape)
  | replace (old new : NodeId)
  | replaceAt (link : Option Link) (old new : NodeId)
  | remove (id : NodeId)
  | removeAt (link : Option Link) (id : NodeId)
  | spliceAt (link : Option Link) (id : NodeId) (replacement : List NodeId)
  | insert (parent : NodeId) (slot : Slot) (index : Nat) (id : NodeId)
  | push (parent : NodeId) (slot : Slot) (id : NodeId)
  | setOptional (parent : NodeId) (slot : Slot) (id : Option NodeId)

namespace Operation

def run : Operation → Edit Unit
  | .alloc shape => discard (Edit.alloc shape)
  | .construct construction => discard construction.run
  | .setName id value => Edit.setName id value
  | .setLeaf id shape => Edit.setLeaf id shape
  | .replace old new => Edit.replace old new
  | .replaceAt link old new => Edit.replaceAt link old new
  | .remove id => Edit.remove id
  | .removeAt link id => Edit.removeAt link id
  | .spliceAt link id replacement => Edit.spliceAt link id replacement
  | .insert parent slot index id => Edit.insert parent slot index id
  | .push parent slot id => Edit.push parent slot id
  | .setOptional parent slot id => Edit.setOptional parent slot id

def after (operation : Operation) (tree : Tree) : Tree :=
  (operation.run.run tree).2

end Operation

-- The tree after a list of edits, each made whatever became of those before it.
def Tree.edited (tree : Tree) (operations : List Operation) : Tree :=
  operations.foldl (fun tree operation => operation.after tree) tree

@[simp] theorem Tree.edited_nil (tree : Tree) : tree.edited [] = tree := rfl

@[simp] theorem Tree.edited_cons (tree : Tree) (operation : Operation) (rest : List Operation) :
    tree.edited (operation :: rest) = (operation.after tree).edited rest := rfl

theorem Tree.edited_append (tree : Tree) (first second : List Operation) :
    tree.edited (first ++ second) = (tree.edited first).edited second :=
  List.foldl_append

structure Ordered (R : Tree → Tree → Prop) : Prop where
  refl : ∀ tree, R tree tree
  trans : ∀ {before middle after}, R before middle → R middle after → R before after

def Edit.Along {α : Type} (R : Tree → Tree → Prop) (edit : Edit α) : Prop :=
  ∀ tree, R tree (edit.run tree).2

namespace Ordered

variable {α β : Type} {R : Tree → Tree → Prop}

theorem foldl (ordered : Ordered R) (step : Tree → α → Tree)
    (each : ∀ tree value, R tree (step tree value)) (values : List α) (tree : Tree) :
    R tree (values.foldl step tree) := by
  induction values generalizing tree with
  | nil => exact ordered.refl tree
  | cons value rest ih => exact ordered.trans (each tree value) (ih (step tree value))

theorem bind (ordered : Ordered R) {edit : Edit α} {next : α → Edit β} (first : edit.Along R)
    (second : ∀ value, (next value).Along R) : Edit.Along R (edit >>= next) := by
  intro tree
  have along := first tree
  rw [Step.run_bind]
  generalize edit.run tree = result at along
  rcases result with ⟨fault | value, after⟩
  · exact along
  · exact ordered.trans along (second value after)

theorem pure (ordered : Ordered R) (value : α) : Edit.Along R (Pure.pure value : Edit α) :=
  ordered.refl

theorem mapM (ordered : Ordered R) {step : α → Edit β} (each : ∀ value, (step value).Along R)
    (values : List α) : Edit.Along R (values.mapM step) := by
  induction values with
  | nil => exact ordered.pure []
  | cons value rest ih =>
      rw [List.mapM_cons]
      exact ordered.bind (each value) fun _ => ordered.bind ih fun _ => ordered.pure _

end Ordered

namespace Edit

/-- Steps that do nothing but add nodes. -/
inductive Allocates : {α : Type} → Edit α → Prop where
  | pure {α : Type} (value : α) : Allocates (Pure.pure value : Edit α)
  | alloc (shape : Shape) : Allocates (alloc shape)
  | bind {α β : Type} {edit : Edit α} {next : α → Edit β} (first : Allocates edit)
      (second : ∀ value, Allocates (next value)) : Allocates (edit >>= next)

variable {α β : Type}

theorem allocates_mapM {step : α → Edit β} (each : ∀ value, (step value).Allocates)
    (values : List α) : Allocates (values.mapM step) := by
  induction values with
  | nil => exact .pure []
  | cons value rest ih =>
      rw [List.mapM_cons]
      exact .bind (each value) fun _ => .bind ih fun _ => .pure _

/-- What holds along the adding of one node holds along such a step. -/
theorem Allocates.along {edit : Edit α} (allocates : edit.Allocates) {R : Tree → Tree → Prop}
    (ordered : Ordered R) (each : ∀ shape, (Edit.alloc shape).Along R) : edit.Along R := by
  induction allocates with
  | pure value => exact ordered.pure value
  | alloc shape => exact each shape
  | bind _ _ first second => exact ordered.bind first second

end Edit

theorem Construction.allocates (construction : Construction) : construction.run.Allocates := by
  cases construction with
  | argumentsOf values =>
      exact .bind (Edit.allocates_mapM (fun value => .alloc _) values) fun _ => .alloc _
  | functionCall | methodCall | newInstance => exact .bind (.alloc _) fun _ => .alloc _
  | staticCall | classConstFetch =>
      exact .bind (.alloc _) fun _ => .bind (.alloc _) fun _ => .alloc _
  | _ => exact .alloc _

/-- An edit goes one of the courses of edits to nodes that are there already, or it does nothing but
add nodes. -/
theorem Operation.course_or_allocates (operation : Operation) :
    (∀ tree, Edit.Course tree (operation.run.run tree)) ∨ operation.run.Allocates := by
  cases operation with
  | alloc shape => exact Or.inr (.bind (.alloc shape) fun _ => .pure ())
  | construct construction => exact Or.inr (.bind construction.allocates fun _ => .pure ())
  | setName id value => exact Or.inl (Edit.course_setName id value)
  | setLeaf id shape => exact Or.inl (Edit.course_setLeaf id shape)
  | replace old new => exact Or.inl (Edit.course_replace old new)
  | replaceAt link old new => exact Or.inl (Edit.course_replaceAt link old new)
  | remove id => exact Or.inl (Edit.course_remove id)
  | removeAt link id => exact Or.inl (Edit.course_removeAt link id)
  | spliceAt link id replacement => exact Or.inl (Edit.course_spliceAt link id replacement)
  | insert parent slot index id => exact Or.inl (Edit.course_insert parent slot index id)
  | push parent slot id => exact Or.inl (Edit.course_push parent slot id)
  | setOptional parent slot id => exact Or.inl (Edit.course_setOptional parent slot id)

/-- A preorder on trees that holds along every elementary change an edit is made of. -/
structure Respected (R : Tree → Tree → Prop) : Prop extends Ordered R where
  bump : ∀ tree, R tree tree.bump
  recordNode : ∀ tree id, R tree (tree.recordNode id)
  setParent : ∀ tree id link, R tree (tree.setParent id link)
  setRoot : ∀ tree id, (tree.node? id).isSome → R tree (tree.setRoot id)
  append : ∀ tree shape, R tree (tree.append { shape })
  setData : ∀ tree id former shape, tree.shape? id = some former → former.children = [] →
    shape.children = [] → R tree ((tree.recordNode id).setData id shape)
  setShape : ∀ tree id slot shape former filled dropped added, tree.shape? id = some shape →
    shape.storage? slot = some former → former.Change slot filled dropped added →
    R tree ((tree.recordNode id).setShape id (shape.store slot filled))

namespace Respected

variable {R : Tree → Tree → Prop}

/-- What follows from a respected relation is respected too, if it is a preorder. -/
theorem weaken {S : Tree → Tree → Prop} (respected : Respected R) (ordered : Ordered S)
    (gives : ∀ {before after}, R before after → S before after) : Respected S where
  toOrdered := ordered
  bump tree := gives (respected.bump tree)
  recordNode tree id := gives (respected.recordNode tree id)
  setParent tree id link := gives (respected.setParent tree id link)
  setRoot tree id found := gives (respected.setRoot tree id found)
  append tree shape := gives (respected.append tree shape)
  setData tree id former shape found before after :=
    gives (respected.setData tree id former shape found before after)
  setShape tree id slot shape former filled dropped added found holds change :=
    gives (respected.setShape tree id slot shape former filled dropped added found holds change)

theorem unlink (respected : Respected R) (tree : Tree) (id : NodeId) (expected : Option Link) :
    R tree (tree.unlink id expected) := by
  unfold Tree.unlink
  split
  · exact respected.setParent tree id none
  · exact respected.refl tree

theorem relink (respected : Respected R) (tree : Tree) (id : NodeId) (link : Option Link) :
    R tree (tree.relink id link) := by
  unfold Tree.relink
  dsimp only
  split
  · exact respected.refl tree
  · split
    · exact respected.trans (respected.setParent tree id link) (respected.bump _)
    · exact respected.setParent tree id link

theorem adopt (respected : Respected R) (tree : Tree) (parent : NodeId)
    (children : List (Slot × NodeId)) : R tree (tree.adopt parent children) := by
  apply respected.foldl
  intro tree child
  exact respected.relink tree child.2 _

theorem refill (respected : Respected R) {tree : Tree} {link : Link} {shape : Shape}
    {former filled : Storage} {dropped added : List NodeId}
    (found : tree.shape? link.parent = some shape) (holds : shape.storage? link.slot = some former)
    (change : former.Change link.slot filled dropped added) (left entered : List NodeId) :
    R tree (tree.refill link (shape.store link.slot filled) left entered) := by
  have stored := respected.setShape tree link.parent link.slot shape former filled dropped added
    found holds change
  have cleared := respected.foldl (fun tree id => tree.unlink id (some link))
    (fun tree id => respected.unlink tree id (some link)) left
    ((tree.recordNode link.parent).setShape link.parent (shape.store link.slot filled))
  exact respected.trans (respected.trans stored cleared)
    (respected.foldl _ (fun tree id => respected.relink tree id (some link)) entered _)

theorem course (respected : Respected R) {tree : Tree} {result : Except Fault Unit × Tree}
    (ended : Edit.Course tree result) : R tree result.2 := by
  cases ended with
  | idle | refused | absent => exact respected.refl tree
  | opened id => exact respected.recordNode tree id
  | rewritten found before after =>
      exact respected.trans (respected.setData tree _ _ _ found before after) (respected.bump _)
  | refilled found holds change =>
      exact respected.trans (respected.refill found holds change _ _) (respected.bump _)
  | halted found holds change => exact respected.refill found holds change _ _
  | rerooted found =>
      exact respected.trans (respected.setRoot tree _ found)
        (respected.trans (respected.unlink _ _ _) (respected.bump _))
  | uprooted found => exact respected.setRoot tree _ found

theorem alloc (respected : Respected R) (shape : Shape) : (Edit.alloc shape).Along R := by
  intro tree
  have added := respected.append tree shape
  rcases Edit.run_alloc shape tree with finishes | ⟨done, size, index, stops⟩
  · rw [finishes]
    exact respected.trans added (respected.adopt _ _ _)
  · rw [stops]
    exact respected.trans added (respected.adopt _ _ _)

/-- Every edit respects the relation, also where it is refused or stops part-way. -/
theorem after (respected : Respected R) (operation : Operation) (tree : Tree) :
    R tree (operation.after tree) := by
  rcases operation.course_or_allocates with courses | allocates
  · exact respected.course (courses tree)
  · exact allocates.along respected.toOrdered respected.alloc tree

theorem edited (respected : Respected R) (operations : List Operation) (tree : Tree) :
    R tree (tree.edited operations) :=
  respected.foldl _ (fun tree operation => respected.after operation tree) operations tree

end Respected

end Codemod
