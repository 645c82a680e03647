import Codemod.Proofs.Tree.Tidy

/-!
Trees in which some names are spelled in another way. Slots, back-references, spans and kinds are as
they were; only the nodes with another spelling are no longer as they were read.
-/

namespace Codemod

def Node.respelled (node : Node) : Option String → Node
  | some name => { node with shape := .name name, touched := true }
  | none => node

namespace Tree

structure Respelled (before : Tree) (names : List (NodeId × String)) (after : Tree) : Prop where
  source : after.source = before.source
  root : after.root = before.root
  size : after.size = before.size
  node? : ∀ id, after.node? id = (before.node? id).map fun node => node.respelled (names.lookup id)
  spelled : ∀ {id name}, names.lookup id = some name →
    ∃ former, before.shape? id = some (.name former)

variable {before after : Tree} {names : List (NodeId × String)}

theorem respelled_nil (tree : Tree) : tree.Respelled [] tree := by
  refine ⟨rfl, rfl, rfl, ?_, nofun⟩
  intro id
  simp [Node.respelled]

namespace Respelled

variable (respelled : before.Respelled names after)
include respelled

theorem node?_other {id : NodeId} (other : names.lookup id = none) :
    after.node? id = before.node? id := by
  rw [respelled.node?, other]
  simp [Node.respelled]

theorem shape? (id : NodeId) : after.shape? id = match names.lookup id with
    | some name => some (.name name)
    | none => before.shape? id := by
  cases found : names.lookup id with
  | none => rw [Tree.shape?, respelled.node?_other found, Tree.shape?]
  | some name =>
      obtain ⟨former, held⟩ := respelled.spelled found
      obtain ⟨node, present, _⟩ := Option.map_eq_some_iff.mp held
      rw [Tree.shape?, respelled.node?, present, found]
      rfl

theorem parent? (id : NodeId) : after.parent? id = before.parent? id := by
  rw [Tree.parent?, respelled.node?, Tree.parent?]
  cases before.node? id <;> cases names.lookup id <;> rfl

theorem span? (id : NodeId) : after.span? id = before.span? id := by
  rw [Tree.span?, respelled.node?, Tree.span?]
  cases before.node? id <;> cases names.lookup id <;> rfl

theorem children (id : NodeId) : after.children id = before.children id := by
  rw [Tree.children, respelled.shape?]
  cases found : names.lookup id with
  | none => rfl
  | some name =>
      obtain ⟨former, held⟩ := respelled.spelled found
      rw [Tree.children, held]
      rfl

theorem kind? (id : NodeId) : after.kind? id = before.kind? id := by
  rw [Tree.kind?, respelled.shape?, Tree.kind?]
  cases found : names.lookup id with
  | none => rfl
  | some name =>
      obtain ⟨former, held⟩ := respelled.spelled found
      rw [held]
      rfl

theorem same : before.Matches after where
  size := respelled.size
  children := respelled.children
  parent? := respelled.parent?

theorem of_commit {other : Tree} (still : other.commit = after.commit) :
    before.Respelled names other where
  source := (source_of_commit still).trans respelled.source
  root := (root_of_commit still).trans respelled.root
  size := (congrArg Array.size (nodes_of_commit still)).trans respelled.size
  node? id := by
    rw [Tree.node?, nodes_of_commit still]
    exact respelled.node? id
  spelled := respelled.spelled

theorem again {other : Tree} (same : after.Respelled [] other) : before.Respelled names other where
  source := same.source.trans respelled.source
  root := same.root.trans respelled.root
  size := same.size.trans respelled.size
  node? id := (same.node?_other rfl).trans (respelled.node? id)
  spelled := respelled.spelled

theorem position? (id : NodeId) : after.position? id = before.position? id := by
  have upward : ∀ depth other, after.spanUpward depth other = before.spanUpward depth other := by
    intro depth
    induction depth with
    | zero => exact fun _ => rfl
    | succ depth ih =>
        intro other
        simp only [spanUpward, respelled.span?, respelled.parent?, ih]
  rw [Tree.position?, Tree.position?, anchor?, anchor?, upward, respelled.size, positionOf, positionOf,
    respelled.source]

/-- One more name. -/
theorem setName {id : NodeId} {former name : String} (found : before.shape? id = some (.name former))
    (other : names.lookup id = none) :
    before.Respelled (names ++ [(id, name)])
      ((after.recordNode id).setData id (.name name)).bump := by
  have framed : after.Framed ((after.recordNode id).setData id (.name name)).bump :=
    framed_ordered.trans (framed_ordered.trans (after.framed_recordNode id) (framed_setData ..))
      (framed_bump _)
  constructor
  · exact framed.source.trans respelled.source
  · exact framed.root.trans respelled.root
  · exact framed.size.trans respelled.size
  · intro node
    rw [node?_bump, node?_setData, node?_recordNode, respelled.node?, Option.map_map,
      List.lookup_append]
    congr 1
    funext held
    by_cases here : node = id
    · subst here
      simp [other, Node.respelled]
    · have differs : (node == id) = false := by simpa using here
      simp [here, Node.respelled, List.lookup_cons, differs]
  · intro node spelling held
    rw [List.lookup_append] at held
    cases early : names.lookup node with
    | some _ => exact respelled.spelled early
    | none =>
        rw [early, Option.none_or, List.lookup_cons] at held
        by_cases here : node = id
        · exact ⟨former, here ▸ found⟩
        · have differs : (node == id) = false := by simpa using here
          simp [differs] at held

/-- Another spelling is no reason that a tree cannot be printed. -/
theorem sound (sound : before.Sound) : after.Sound := by
  constructor
  · rw [respelled.root]
    exact respelled.same.contains.mpr sound.rooted
  · intro id node found span spanned
    rw [respelled.node?] at found
    obtain ⟨former, held, rfl⟩ := Option.map_eq_some_iff.mp found
    rw [respelled.source]
    cases spelling : names.lookup id with
    | none =>
        rw [spelling] at spanned
        exact sound.nodes held span spanned
    | some name =>
        rw [spelling] at spanned
        exact ⟨(sound.nodes held span spanned).1, nofun⟩

theorem sourced {id : NodeId} (sourced : ¬ before.Sourceless id) : ¬ after.Sourceless id := by
  rintro ⟨node, found, verbatim, spanless⟩
  have kind : after.kind? id = some .verbatim := by
    rw [Tree.kind?, Tree.shape?, found, Option.map_some, Option.map_some, verbatim]
  have unspanned : after.span? id = none := by
    rw [Tree.span?, found, Option.bind_some, spanless]
  rw [respelled.kind?] at kind
  rw [respelled.span?] at unspanned
  obtain ⟨shape, shaped, kindly⟩ := Option.map_eq_some_iff.mp kind
  obtain ⟨former, held, rfl⟩ := Option.map_eq_some_iff.mp shaped
  rw [Tree.span?, held, Option.bind_some] at unspanned
  exact sourced ⟨former, held, kindly, unspanned⟩

end Respelled

end Tree

end Codemod
