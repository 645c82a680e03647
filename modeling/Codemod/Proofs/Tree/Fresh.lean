import Codemod.Proofs.Tree.Lowering

/-!
The tree of a program as it comes from the reader. All its nodes but the first are as they were
read, so that the tree holds every node once, whatever the spans of the program are.
-/

namespace Codemod.Tree

variable {fits : Span → List Span → Prop}

theorem setRoot_loose {tree : Tree} (closed : tree.journal = none) {id : NodeId}
    (loose : tree.parent? id = none) : tree.setRoot id = { tree with root := id } := by
  have noted : tree.recordLink id = tree := by
    rw [recordLink, record, closed]
  have nodes : (tree.nodes.modify id.index fun node => { node with parent := none })
      = tree.nodes := by
    apply Array.ext_getElem?
    intro index
    rw [Array.getElem?_modify]
    split
    · next here =>
        subst here
        cases found : tree.nodes[id.index]? with
        | none => rfl
        | some node =>
            have unheld : node.parent = none := by
              simpa [parent?, node?, found] using loose
            rw [Option.map_some, ← unheld]
    · rfl
  simp only [setRoot, setParent, noted, nodes]

/-- A tree as it was read from a source: the first node is left over, all others are as they were
read, and the root spans the text. -/
structure Fresh (fits : Span → List Span → Prop) (source : String) (tree : Tree) : Prop where
  text : tree.source = source
  journal : tree.journal = none
  revision : tree.revision = 0
  first : tree.node? ⟨0⟩ = some { shape := .program [] }
  read : ∀ id, 0 < id.index → id.index < tree.size → ∃ node, tree.AsRead fits id node
  rooted : 0 < tree.root.index ∧ tree.root.index < tree.size
  unheld : tree.parent? tree.root = none
  taken : ∀ id, 0 < id.index → id.index < tree.size → id ≠ tree.root →
    ∃ parent, id ∈ (tree.children parent).map Prod.snd
  whole : tree.span? tree.root = some ⟨0, source.utf8ByteSize⟩

theorem ofProgram_fresh {source : String} {program : List Php.Statement}
    (fit : OfProgram.Fit fits (Php.statementPlaces program))
    (whole : fits ⟨0, source.utf8ByteSize⟩ (program.map Php.Statement.span)) :
    Fresh fits source (ofProgram source program) := by
  let built := OfProgram.statements program (Tree.empty source)
  let added := built.2.appendParsed (.program built.1) ⟨0, source.utf8ByteSize⟩
  have statements : (Tree.empty source).Lowered fits built.1 (program.map Php.Statement.span) built.2 :=
    OfProgram.statements_lowers program fit _ _ rfl (lowered_refl _)
  have lowered : (Tree.empty source).Lowered fits [added.1] [⟨0, source.utf8ByteSize⟩] added.2 :=
    statements.add statements.journal (by rw [Shape.children, Shape.map_snd_tagged]) whole
  have tree : ofProgram source program = { added.2 with root := added.1 } :=
    setRoot_loose lowered.journal (lowered.unheld _ List.mem_cons_self)
  rw [tree]
  have fresh := lowered.fresh _ List.mem_cons_self
  have size : (Tree.empty source).size = 1 := rfl
  constructor
  case text => exact (congrArg Tree.source lowered.frame : _)
  case journal => exact lowered.journal
  case revision => exact (congrArg Tree.revision lowered.frame : _)
  case first => exact lowered.old ⟨0⟩ (by simp [size])
  case read =>
    intro id above below
    obtain ⟨node, read⟩ := lowered.read id above below
    exact ⟨node, read.found, read.spanned, read.untouched, read.places, read.older, read.named,
      read.nodup⟩
  case rooted => exact ⟨fresh.1, fresh.2⟩
  case unheld => exact lowered.unheld _ List.mem_cons_self
  case taken =>
    intro id above below other
    exact lowered.taken id above below fun member => other (List.mem_singleton.mp member)
  case whole => exact (List.cons.inj lowered.spans).1

/-- Wherever the spans lie. -/
theorem ofProgram_read (source : String) (program : List Php.Statement) :
    Fresh (fun _ _ => True) source (ofProgram source program) :=
  ofProgram_fresh (fun _ _ => ⟨trivial, trivial⟩) trivial

end Codemod.Tree
