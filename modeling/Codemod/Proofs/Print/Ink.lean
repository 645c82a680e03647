import Codemod.Proofs.Text.Ink
import Codemod.Tree.Build
import Codemod.Tree.Print

/-!
What printing options decide. They say how far code is moved in that is spelled out, and from which
length on a chain of calls takes a line for each of them: both only add blanks. Two ways of printing
that agree on the children of a node agree on the node, so by depth they agree on the tree.
-/

namespace Codemod.Tree

open Text (ink)

variable {tree : Tree} {options others : PrintOptions}

section

variable {print other : NodeId → String → Except PrintError String}
variable (agree : ∀ id {base before : String}, ink base = [] → ink before = [] →
  Agree ink (print id base) (other id before))
variable {base before : String} (blank : ink base = []) (bare : ink before = [])

include agree

section

include blank bare

theorem printChild_agree (parent : NodeId) (slot : Slot) (child : NodeId) :
    Agree ink (tree.printChild print parent slot child base)
      (tree.printChild other parent slot child before) := by
  refine agree_bind (agree child blank bare) fun text former same => ?_
  split
  · exact agree_pure (by simp [same])
  · exact agree_pure same

theorem printJoined_agree (gap : String) (ids : List NodeId) :
    Agree ink (printJoined print gap ids base) (printJoined other gap ids before) :=
  agree_bind (agree_mapM ids fun id => agree id blank bare) fun _ _ same =>
    agree_pure (Text.ink_intercalate gap same)

theorem printOptional_agree (held : Option NodeId) (missing : String)
    {around through : String → String}
    (same : ∀ text former, ink text = ink former → ink (around text) = ink (through former)) :
    Agree ink (printOptional print held base missing around)
      (printOptional other held before missing through) := by
  cases held with
  | none => exact agree_refl ..
  | some child =>
      exact agree_bind (agree child blank bare) fun text former inks =>
        agree_pure (same text former inks)

theorem printCall_agree {lead front : String} (leads : ink lead = ink front) (call : ChainedCall) :
    Agree ink (printCall print base lead call) (printCall other before front call) :=
  agree_bind (agree call.method blank bare) fun _ _ methods =>
    agree_bind (agree call.arguments blank bare) fun _ _ arguments =>
      agree_pure (by simp [leads, methods, arguments])

end

theorem childReplacements_agree (id : NodeId) (pairs : List ((Slot × NodeId) × (Slot × Span))) :
    Agree (List.map Replacement.ink) (tree.childReplacements print id pairs)
      (tree.childReplacements other id pairs) := by
  induction pairs with
  | nil => exact agree_refl ..
  | cons pair rest ih =>
      obtain ⟨⟨slot, child⟩, ⟨_, place⟩⟩ := pair
      rw [childReplacements, childReplacements]
      split
      · exact ih
      · -- The line of the place indents the child, whatever the options are.
        have indent := Text.ink_lineIndent tree.source place.start
        refine agree_bind (printChild_agree agree indent indent id slot child) fun _ _ text => ?_
        refine agree_bind ih fun _ _ edits => agree_pure ?_
        rw [List.map_cons, List.map_cons, edits, Replacement.ink, Replacement.ink, text]

theorem printAround_agree (id : NodeId) (node : Node) (span : Span) :
    Agree ink (tree.printAround print id node span) (tree.printAround other id node span) := by
  refine agree_bind (childReplacements_agree agree id _) fun edits formers same => ?_
  have splices : Agree ink (Text.splice tree.source span edits)
      (Text.splice tree.source span formers) := Text.splice_agree same
  rcases splices.cases with
    ⟨error, first, second⟩ | ⟨text, former, first, second, inks⟩
  · rw [first, second]
    exact agree_refl ..
  · rw [first, second]
    exact agree_pure inks

theorem printItems_agree (places : List Span) (itemBase gap : String) (indent : ink itemBase = [])
    (items : List NodeId) (previous : Option (Option Nat)) :
    Agree ink (tree.printItems print places itemBase gap previous items)
      (tree.printItems other places itemBase gap previous items) := by
  induction items generalizing previous with
  | nil => exact agree_refl ..
  | cons item rest ih =>
      unfold printItems
      refine agree_bind (agree item ?_ ?_) fun _ _ text => agree_bind (ih _) fun _ _ texts =>
        agree_pure (by simp [text, texts])
      all_goals
        split
        · exact Text.ink_lineIndent ..
        · exact indent

theorem printResized_agree (node : Node) (span : Span) (places : List Span) (first : Span) :
    Agree ink (tree.printResized print node span places first)
      (tree.printResized other node span places first) :=
  agree_bind (printItems_agree agree places _ _ (Text.ink_lineIndent ..) _ none) fun _ _ text =>
    agree_pure (by simp [text])

include blank bare

theorem printBlock_agree (first : ink options.indent = []) (second : ink others.indent = [])
    (statements : List NodeId) :
    Agree ink (printBlock options print statements base)
      (printBlock others other statements before) := by
  have inner : ink (base ++ options.indent) = [] := by rw [Text.ink_append, blank, first]; rfl
  have deeper : ink (before ++ others.indent) = [] := by rw [Text.ink_append, bare, second]; rfl
  have line (statement : NodeId) :
      Agree ink (do return "\n" ++ (base ++ options.indent)
          ++ (← print statement (base ++ options.indent)))
        (do return "\n" ++ (before ++ others.indent)
          ++ (← other statement (before ++ others.indent))) :=
    agree_bind (agree statement inner deeper) fun _ _ text =>
      agree_pure (by simp [text, blank, bare, first, second])
  exact agree_bind (agree_mapM statements line) fun _ _ lines =>
    agree_pure (by simp [Text.ink_join, lines, blank, bare])

theorem printChain_agree (first : ink options.indent = []) (second : ink others.indent = [])
    (id : NodeId) :
    Agree ink (tree.printChain options print id base) (tree.printChain others other id before) := by
  unfold printChain
  obtain ⟨head, calls⟩ := tree.chain tree.size id
  -- A call may be led in by a new line under one threshold and by nothing under the other.
  have leads : ink (if options.chainThreshold < calls.length then
        "\n" ++ base ++ options.indent else "")
      = ink (if others.chainThreshold < calls.length then
        "\n" ++ before ++ others.indent else "") := by
    have line : ink "\n" = [] := by decide
    split <;> split <;> simp [line, blank, bare, first, second]
  refine agree_bind (agree head blank bare) fun _ _ object =>
    agree_bind (agree_mapM calls (printCall_agree agree blank bare leads)) fun _ _ texts =>
      agree_pure ?_
  rw [Text.ink_append, Text.ink_append, Text.ink_join, Text.ink_join, texts]
  split <;> simp [object]

theorem printCanonical_agree (first : ink options.indent = []) (second : ink others.indent = [])
    (id : NodeId) (node : Node) :
    Agree ink (tree.printCanonical options print id node base)
      (tree.printCanonical others other id node before) := by
  unfold printCanonical
  cases node.shape with
  | «verbatim» =>
      cases node.span with
      | none => exact agree_refl ..
      | some span => exact printAround_agree agree id node span
  | program statements => exact printJoined_agree agree blank bare "\n" statements
  | block statements => exact printBlock_agree agree blank bare first second statements
  | methodCall => exact printChain_agree agree blank bare first second id
  | argumentList arguments =>
      exact agree_bind (printJoined_agree agree blank bare ", " arguments) fun _ _ items =>
        agree_pure (by simp [items])
  | array items legacy =>
      refine agree_bind (printJoined_agree agree blank bare ", " items) fun _ _ text =>
        agree_pure ?_
      cases legacy <;> simp [text]
  | expressionStatement | parenthesized | argument =>
      exact agree_bind (agree _ blank bare) fun _ _ text => agree_pure (by simp [text])
  | functionCall | classConstFetch =>
      exact agree_bind (agree _ blank bare) fun _ _ front =>
        agree_bind (agree _ blank bare) fun _ _ back => agree_pure (by simp [front, back])
  | staticCall =>
      exact agree_bind (agree _ blank bare) fun _ _ className =>
        agree_bind (agree _ blank bare) fun _ _ method =>
          agree_bind (agree _ blank bare) fun _ _ arguments =>
            agree_pure (by simp [className, method, arguments])
  | new =>
      exact agree_bind (printOptional_agree agree blank bare _ _ fun _ _ text => text)
        fun _ _ arguments => agree_bind (agree _ blank bare) fun _ _ className =>
          agree_pure (by simp [className, arguments])
  | arrayItem =>
      exact agree_bind (printOptional_agree agree blank bare _ _ fun _ _ text => by simp [text])
        fun _ _ key => agree_bind (agree _ blank bare) fun _ _ value =>
          agree_pure (by simp [key, value])
  | classMethod =>
      have opening (text former : String) (same : ink text = ink former) :
          ink ("\n" ++ base ++ text) = ink ("\n" ++ before ++ former) := by
        simp [blank, bare, same]
      exact agree_bind (agree _ blank bare) fun _ _ title =>
        agree_bind (printJoined_agree agree blank bare ", " _) fun _ _ parameters =>
          agree_bind (printOptional_agree agree blank bare _ _ fun _ _ text => by simp [text])
            fun _ _ returnType =>
              agree_bind (printOptional_agree agree blank bare _ _ opening) fun _ _ body =>
                agree_pure (by simp [title, parameters, returnType, body])
  | parameter =>
      exact agree_bind (printOptional_agree agree blank bare _ _ fun _ _ text => by simp [text])
        fun _ _ hint => agree_bind (agree _ blank bare) fun _ _ holder =>
          agree_bind (printOptional_agree agree blank bare _ _ fun _ _ text => by simp [text])
            fun _ _ default => agree_pure (by simp [hint, holder, default])
  | name | «variable» | literal | raw => exact agree_refl ..

theorem printNode_agree (first : ink options.indent = []) (second : ink others.indent = [])
    (id : NodeId) :
    Agree ink (tree.printNode options print id base) (tree.printNode others other id before) := by
  unfold printNode
  cases tree.node? id with
  | none => exact agree_refl ..
  | some node =>
      have canonical : Agree ink (tree.printCanonical options print id node base)
          (tree.printCanonical others other id node before) :=
        printCanonical_agree agree blank bare first second id node
      dsimp only
      split
      · exact canonical
      · next span _ =>
          split
          · exact agree_refl ..
          · split
            · exact printAround_agree agree id node span
            · split
              · exact printResized_agree agree node span _ _
              · exact canonical

end

theorem printTo_agree (first : ink options.indent = []) (second : ink others.indent = [])
    (depth : Nat) (id : NodeId) {base before : String} (blank : ink base = [])
    (bare : ink before = []) :
    Agree ink (tree.printTo options depth id base) (tree.printTo others depth id before) := by
  induction depth generalizing id base before with
  | zero => exact agree_refl ..
  | succ depth ih =>
      exact printNode_agree (fun id _ _ blank bare => ih id blank bare) blank bare first second id

/-- Options whose levels of indentation are blank decide about blanks only: a tree prints under both
or is refused for the same reason, and its texts are equal once their blanks are deleted. -/
theorem print_ink (tree : Tree) {options others : PrintOptions}
    (first : Text.allBlank options.indent = true) (second : Text.allBlank others.indent = true) :
    (∃ error, tree.print options = .error error ∧ tree.print others = .error error)
      ∨ ∃ text other, tree.print options = .ok text ∧ tree.print others = .ok other
        ∧ ink text = ink other := by
  have agree : Agree ink (tree.print options) (tree.print others) :=
    agree_bind (agree_refl id tree.validate) fun _ _ _ =>
      printTo_agree (Text.ink_eq_nil_iff.mpr first) (Text.ink_eq_nil_iff.mpr second) tree.size
        tree.root rfl rfl
  exact agree.cases

-- The statement `$m->a()->b();`, none of it read from a text.
def chainedCalls : Tree :=
  let edit : Edit Unit := do
    let holder ← Edit.variableNode "$m"
    let first ← Edit.methodCall holder "a" (← Edit.argumentsOf [])
    let second ← Edit.methodCall first "b" (← Edit.argumentsOf [])
    Edit.push ⟨0⟩ .statement (← Edit.alloc (.expressionStatement second))
  (edit.run (Tree.empty "")).2

/-- A line for each call under one threshold and one line for all under the other. -/
theorem print_ink_chained : Text.allBlank "\t" = true ∧ Text.allBlank "    " = true
    ∧ (chainedCalls.print ⟨"\t", 1⟩).toOption = some "$m\n\t->a()\n\t->b();"
    ∧ (chainedCalls.print {}).toOption = some "$m->a()->b();"
    ∧ ((∃ error, chainedCalls.print ⟨"\t", 1⟩ = .error error
          ∧ chainedCalls.print {} = .error error)
      ∨ ∃ text other, chainedCalls.print ⟨"\t", 1⟩ = .ok text ∧ chainedCalls.print {} = .ok other
          ∧ ink text = ink other) := by
  have first : Text.allBlank "\t" = true := by decide
  have second : Text.allBlank "    " = true := by decide
  refine ⟨first, second, by decide +kernel, by decide +kernel, ?_⟩
  exact print_ink chainedCalls first second

end Codemod.Tree
