import Codemod.Proofs.Print.Success
import Codemod.Proofs.Tree.Reached

/-!
What edits leave of nodes that were read. Only leaves are given other data, and slots keep their number
of children unless they are optional or lists; so a call of a method that was read is still untouched
and has its slots as they were, and a verbatim node has a place for each of its parts. Nothing is asked
of the spans.
-/

namespace Codemod

/-- A node as edits leave it. If it was read, a verbatim node has a place for each part, and a call is
untouched and has its slots as they were. -/
structure Node.Sited (node : Node) : Prop where
  parts : node.span.isSome → node.shape.kind = .verbatim →
    node.shape.children.length ≤ node.layout.length
  call : node.span.isSome → node.shape.kind = .methodCall →
    node.touched = false ∧ node.layout.map Prod.fst = node.shape.children.map Prod.fst

theorem Shape.slots_of_call {shape : Shape} (call : shape.kind = .methodCall) :
    shape.children.map Prod.fst = [.object, .method, .arguments] := by
  cases shape with
  | methodCall => rfl
  | _ => cases call

namespace Tree

variable {tree : Tree}

theorem sited_lasting : Lasting (Every Node.Sited) := by
  apply lasting_every
  · exact fun shape => ⟨nofun, nofun⟩
  · exact fun node parent sited => ⟨sited.parts, sited.call⟩
  · intro node shape bare sited
    refine ⟨fun _ _ => by simp [bare], fun _ call => ?_⟩
    have slots := Shape.slots_of_call call
    rw [bare] at slots
    cases slots
  · intro node slot former filled dropped added holds change sited
    constructor
    · intro read verbatim
      obtain ⟨kind, length⟩ := Shape.store_verbatim holds change verbatim
      exact length ▸ sited.parts read kind
    · intro read call
      rw [Shape.kind_store] at call
      obtain ⟨untouched, slots⟩ := sited.call read call
      refine ⟨untouched, slots.trans ?_⟩
      rw [Shape.slots_of_call call, Shape.slots_of_call ((Shape.kind_store ..).trans call)]

theorem Reached.sited (reached : tree.Reached) : tree.Every Node.Sited := by
  refine (reached.keeps sited_lasting (every_empty · ⟨nofun, nofun⟩) ?_).now
  intro source program id node found
  have fresh := ofProgram_read source program
  by_cases first : id = ⟨0⟩
  · subst first
    cases fresh.first.symm.trans found
    exact ⟨nofun, nofun⟩
  · have read := fresh.node found first
    exact ⟨fun _ _ => Nat.le_of_eq read.lengths, fun _ _ => ⟨read.untouched, read.slots.symm⟩⟩

end Tree

end Codemod
