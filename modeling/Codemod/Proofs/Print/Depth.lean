import Codemod.Proofs.Print.Coverage

/-!
The text of a node does not depend on the depth it is printed to: a step that gives a text gives the
same text when what it prints with gives more texts. Every way of printing keeps this, so that a node
that is printed to some depth prints alike to every greater depth.
-/

namespace Codemod

variable {α β : Type}

def PrintError.Yields (first second : Except PrintError α) : Prop :=
  ∀ value, first = .ok value → second = .ok value

open PrintError

theorem yields_refl (step : Except PrintError α) : Yields step step :=
  fun _ => id

theorem yields_bind {first second : Except PrintError α} {next other : α → Except PrintError β}
    (steps : Yields first second) (nexts : ∀ value, Yields (next value) (other value)) :
    Yields (first >>= next) (second >>= other) := by
  intro result ended
  cases first with
  | error error => cases ended
  | ok value =>
      rw [steps value rfl]
      exact nexts value result ended

theorem yields_mapM {step other : α → Except PrintError β}
    (steps : ∀ value, Yields (step value) (other value)) (values : List α) :
    Yields (values.mapM step) (values.mapM other) := by
  induction values with
  | nil => exact yields_refl _
  | cons value rest ih =>
      rw [List.mapM_cons, List.mapM_cons]
      exact yields_bind (steps value) fun _ => yields_bind ih fun _ => yields_refl _

namespace Tree

variable {tree : Tree} {options : PrintOptions}

section

variable {print more : NodeId → String → Except PrintError String}
variable (yields : ∀ id base, Yields (print id base) (more id base))

include yields

theorem printChild_yields (parent : NodeId) (slot : Slot) (child : NodeId) (base : String) :
    Yields (tree.printChild print parent slot child base)
      (tree.printChild more parent slot child base) :=
  yields_bind (yields child base) fun _ => yields_refl _

theorem childReplacements_yields (id : NodeId) (pairs : List ((Slot × NodeId) × (Slot × Span))) :
    Yields (tree.childReplacements print id pairs) (tree.childReplacements more id pairs) := by
  induction pairs with
  | nil => exact yields_refl _
  | cons pair rest ih =>
      obtain ⟨⟨slot, child⟩, ⟨_, place⟩⟩ := pair
      rw [childReplacements, childReplacements]
      split
      · exact ih
      · exact yields_bind (printChild_yields yields id slot child _) fun _ =>
          yields_bind ih fun _ => yields_refl _

theorem printAround_yields (id : NodeId) (node : Node) (span : Span) :
    Yields (tree.printAround print id node span) (tree.printAround more id node span) :=
  yields_bind (childReplacements_yields yields id _) fun _ => yields_refl _

theorem printItems_yields (places : List Span) (itemBase gap : String) (items : List NodeId)
    (previous : Option (Option Nat)) :
    Yields (tree.printItems print places itemBase gap previous items)
      (tree.printItems more places itemBase gap previous items) := by
  induction items generalizing previous with
  | nil => exact yields_refl _
  | cons item rest ih =>
      unfold printItems
      exact yields_bind (yields item _) fun _ => yields_bind (ih _) fun _ => yields_refl _

theorem printResized_yields (node : Node) (span : Span) (places : List Span) (first : Span) :
    Yields (tree.printResized print node span places first)
      (tree.printResized more node span places first) :=
  yields_bind (printItems_yields yields places _ _ _ none) fun _ => yields_refl _

theorem printJoined_yields (gap : String) (ids : List NodeId) (base : String) :
    Yields (printJoined print gap ids base) (printJoined more gap ids base) :=
  yields_bind (yields_mapM (fun id => yields id base) ids) fun _ => yields_refl _

theorem printOptional_yields (held : Option NodeId) (base missing : String)
    (around : String → String) :
    Yields (printOptional print held base missing around)
      (printOptional more held base missing around) := by
  cases held with
  | none => exact yields_refl _
  | some child => exact yields_bind (yields child base) fun _ => yields_refl _

theorem printCall_yields (base lead : String) (call : ChainedCall) :
    Yields (printCall print base lead call) (printCall more base lead call) :=
  yields_bind (yields call.method base) fun _ =>
    yields_bind (yields call.arguments base) fun _ => yields_refl _

theorem printChain_yields (id : NodeId) (base : String) :
    Yields (tree.printChain options print id base) (tree.printChain options more id base) := by
  unfold printChain
  obtain ⟨head, calls⟩ := tree.chain tree.size id
  exact yields_bind (yields head base) fun _ =>
    yields_bind (yields_mapM (printCall_yields yields base _) calls) fun _ => yields_refl _

theorem printBlock_yields (statements : List NodeId) (base : String) :
    Yields (printBlock options print statements base) (printBlock options more statements base) :=
  yields_bind (yields_mapM (fun statement =>
    yields_bind (yields statement _) fun _ => yields_refl _) statements) fun _ => yields_refl _

theorem printCanonical_yields (id : NodeId) (node : Node) (base : String) :
    Yields (tree.printCanonical options print id node base)
      (tree.printCanonical options more id node base) := by
  unfold printCanonical
  cases node.shape with
  | «verbatim» =>
      cases node.span with
      | none => exact yields_refl _
      | some span => exact printAround_yields yields id node span
  | program | argumentList | array =>
      first
        | exact printJoined_yields yields _ _ base
        | exact yields_bind (printJoined_yields yields _ _ base) fun _ => yields_refl _
  | block statements => exact printBlock_yields yields statements base
  | methodCall => exact printChain_yields yields id base
  | expressionStatement | parenthesized | argument =>
      exact yields_bind (yields _ base) fun _ => yields_refl _
  | functionCall | classConstFetch =>
      exact yields_bind (yields _ base) fun _ => yields_bind (yields _ base) fun _ => yields_refl _
  | staticCall =>
      exact yields_bind (yields _ base) fun _ => yields_bind (yields _ base) fun _ =>
        yields_bind (yields _ base) fun _ => yields_refl _
  | new | arrayItem =>
      exact yields_bind (printOptional_yields yields _ base _ _) fun _ =>
        yields_bind (yields _ base) fun _ => yields_refl _
  | classMethod =>
      exact yields_bind (yields _ base) fun _ =>
        yields_bind (printJoined_yields yields _ _ base) fun _ =>
          yields_bind (printOptional_yields yields _ base _ _) fun _ =>
            yields_bind (printOptional_yields yields _ base _ _) fun _ => yields_refl _
  | parameter =>
      exact yields_bind (printOptional_yields yields _ base _ _) fun _ =>
        yields_bind (yields _ base) fun _ =>
          yields_bind (printOptional_yields yields _ base _ _) fun _ => yields_refl _
  | name | «variable» | literal | raw => exact yields_refl _

theorem printNode_yields (id : NodeId) (base : String) :
    Yields (tree.printNode options print id base) (tree.printNode options more id base) := by
  unfold printNode
  cases tree.node? id with
  | none => exact yields_refl _
  | some node =>
      have canonical : Yields (tree.printCanonical options print id node base)
          (tree.printCanonical options more id node base) := printCanonical_yields yields id node base
      dsimp only
      split
      · exact canonical
      · next span _ =>
          split
          · exact yields_refl _
          · split
            · exact printAround_yields yields id node span
            · split
              · exact printResized_yields yields node span _ _
              · exact canonical

end

theorem printTo_yields {depth deeper : Nat} (deep : depth ≤ deeper) (id : NodeId) (base : String) :
    Yields (tree.printTo options depth id base) (tree.printTo options deeper id base) := by
  induction depth generalizing deeper id base with
  | zero => exact nofun
  | succ depth ih =>
      cases deeper with
      | zero => omega
      | succ deeper => exact printNode_yields (ih (Nat.le_of_succ_le_succ deep)) id base

/-- A node of a tree that prints, with the nodes above it: to every depth that reaches below the node
it has the same text. -/
theorem printTo_stable (sound : tree.Sound) (held : tree.HeldOnce)
    (sourced : ∀ id, tree.Reaches id → ¬ tree.Sourceless id) {id : NodeId} {above : List NodeId}
    (path : tree.Path id above) (base : String) :
    ∃ text, ∀ depth, tree.size ≤ depth + above.length →
      tree.printTo options depth id base = .ok text := by
  have short : tree.size ≤ (tree.size - above.length) + above.length := by omega
  have covers := printTo_covers sound held options path short base
  cases printed : tree.printTo options (tree.size - above.length) id base with
  | error error =>
      rw [printed] at covers
      obtain ⟨other, _, lacks, top, member, below⟩ := covers
      cases List.mem_singleton.mp member
      exact absurd lacks (sourced other (path.reaches.trans below))
  | ok text =>
      refine ⟨text, fun depth enough => ?_⟩
      exact printTo_yields (by omega) id base text printed

end Tree

end Codemod
