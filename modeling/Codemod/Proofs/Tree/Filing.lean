import Codemod.Proofs.Tree.Filed
import Codemod.Proofs.Tree.Spelling

/-!
What is read is filed. Arguments are read into lists and lists into calls, and nothing else is read
into the slots made for them, whatever the spans of the program are.
-/

namespace Codemod.Tree

open Php

namespace OfProgram

def Files {α : Type} (step : Build α) : Prop :=
  ∀ tree : Tree, tree.Files (step tree).2

-- Such a step, with what is known of its answer.
def FilesAs {α : Type} (step : Build α) (fits : Tree → α → Prop) : Prop :=
  ∀ tree : Tree, tree.Files (step tree).2 ∧ fits (step tree).2 (step tree).1

section

variable {α β : Type} {step : Build α}

theorem files_pure (value : α) : Files (pure value : Build α) :=
  fun tree => (tree.counted_refl).toFiles

theorem files_bind {next : α → Build β} (first : Files step) (second : ∀ value, Files (next value)) :
    Files (step >>= next) :=
  fun tree => (first tree).trans (second _ _)

theorem files_map (f : α → β) (files : Files step) : Files (f <$> step) :=
  files

theorem files_cons {rest : Build (List α)} (first : Files step) (second : Files rest) :
    Files (do
      let value ← step
      return value :: (← rest)) :=
  files_bind first fun _ => files_bind second fun _ => files_pure _

theorem files_textOf (span : Span) : Files (textOf span) :=
  fun tree => (tree.counted_refl).toFiles

end

/-- A node is added whose children are fit for their slots. -/
theorem files_appended {tree : Tree} {shape : Shape}
    (suits : ∀ child ∈ shape.children, tree.Suits child.1 child.2) (span : Span) :
    tree.Made (add shape span tree).2 shape.kind (add shape span tree).1 := by
  apply made_of_shapes (fun id => tree.shape?_appendParsed shape span id)
  · exact (framed_adopt _ _ _).root
  · exact revision_respected.adopt (tree.append _) _ shape.children
  · exact suits

theorem files_add {shape : Shape} (plain : shape.kind.calls = false) (span : Span) :
    Files (add shape span) := by
  intro tree
  have suits : ∀ child ∈ shape.children, tree.Suits child.1 child.2 := by
    intro child held kind wants
    rw [shape.free_of_kind plain child held] at wants
    cases wants
  exact (files_appended suits span).toFiles

theorem files_verbatim (label : String) (span : Span) (parts : List NodeId) :
    Files (verbatim label span parts) :=
  files_add rfl span

theorem files_nameNode (span : Span) : Files (nameNode span) :=
  files_bind (files_textOf span) fun _ => files_add rfl span

theorem files_variableNode (span : Span) : Files (variableNode span) :=
  files_bind (files_textOf span) fun _ => files_add rfl span

theorem files_literalNode (span : Span) : Files (literalNode span) :=
  files_bind (files_textOf span) fun _ => files_add rfl span

theorem files_selectorNode (label : String) (selector : Selector) :
    Files (selectorNode label selector) := by
  cases selector with
  | identifier span => exact files_nameNode span
  | other span => exact files_verbatim label span []

theorem files_hintNode (hint : Hint) : Files (hintNode hint) := by
  induction hint with
  | name span => exact files_nameNode span
  | wrapped span inner ih => exact files_bind ih fun _ => files_verbatim _ _ _
  | joined span left right leftIh rightIh =>
      exact files_bind leftIh fun _ => files_bind rightIh fun _ => files_verbatim _ _ _

theorem files_optionalHint (hint : Option Hint) : Files (optionalHint hint) := by
  cases hint with
  | none => exact files_pure none
  | some hint => exact files_map some (files_hintNode hint)

theorem files_nameOr (e : Expr) {other : Build NodeId} (files : Files other) :
    Files (nameOr e other) := by
  apply files_bind (files_textOf e.span)
  intro text
  split
  · exact files_nameNode e.span
  · exact files

/-- The answer is as required of the tree it leaves. -/
theorem files_then {α β : Type} {step : Build α} {next : α → Build β} {fits : Tree → α → Prop}
    (first : FilesAs step fits)
    (second : ∀ value tree, fits tree value → tree.Files (next value tree).2) :
    Files (step >>= next) := by
  intro tree
  obtain ⟨files, fit⟩ := first tree
  exact files.trans (second _ _ fit)

theorem files_valued {value : Build NodeId} (files : Files value) (label : Option String)
    (unpack : Bool) (span : Span) :
    FilesAs (value >>= fun id => add (.argument label unpack id) span)
      fun tree id => tree.kind? id = some .argument := by
  intro tree
  have suits : ∀ child ∈ (Shape.argument label unpack (value tree).1).children,
      (value tree).2.Suits child.1 child.2 := by
    simp [Shape.children, Suits, Slot.content?]
  have made := files_appended suits span
  exact ⟨(files tree).trans made.toFiles, made.kind⟩

mutual

theorem expression_files : ∀ e : Expr, Files (expression e)
  | .functionCall span callee list => by
      rw [expression]
      apply files_bind (files_nameOr callee (expression_files callee))
      intro callee
      apply files_then (argumentList_files list)
      intro list tree listed
      exact (files_appended (by simp [Shape.children, Suits, Slot.content?, listed]) span).toFiles
  | .methodCall span object method list nullsafe => by
      rw [expression]
      apply files_bind (expression_files object)
      intro object
      apply files_bind (files_selectorNode "member" method)
      intro method
      apply files_then (argumentList_files list)
      intro list tree listed
      exact (files_appended (by simp [Shape.children, Suits, Slot.content?, listed]) span).toFiles
  | .staticCall span className method list => by
      rw [expression]
      apply files_bind (files_nameOr className (expression_files className))
      intro className
      apply files_bind (files_selectorNode "member" method)
      intro method
      apply files_then (argumentList_files list)
      intro list tree listed
      exact (files_appended (by simp [Shape.children, Suits, Slot.content?, listed]) span).toFiles
  | .instantiation span className list => by
      rw [expression]
      apply files_bind (files_nameOr className (expression_files className))
      intro className
      apply files_then (optionalArgumentList_files list)
      intro list tree listed
      have suits : ∀ child ∈ (Shape.new className list).children, tree.Suits child.1 child.2 := by
        cases list <;> simp_all [Shape.children, Shape.tagged, Suits, Slot.content?]
      exact (files_appended suits span).toFiles
  | .classConstant span className constant => by
      rw [expression]
      exact files_bind (files_nameOr className (expression_files className)) fun _ =>
        files_bind (files_selectorNode "constant" constant) fun _ => files_add rfl span
  | .array span items legacy => by
      rw [expression]
      exact files_bind (elements_files items) fun _ => files_add rfl span
  | .parenthesized span inner => by
      rw [expression]
      exact files_bind (expression_files inner) fun _ => files_add rfl span
  | .literal span => by
      rw [expression]
      exact files_literalNode span
  | .variable span => by
      rw [expression]
      exact files_variableNode span
  | .identifier span => by
      rw [expression]
      exact files_nameNode span
  | .constant span
  | .other span => by
      rw [expression]
      exact files_add rfl span
  | .closure span list returnType body => by
      rw [expression]
      exact files_bind (parameters_files list) fun _ =>
        files_bind (files_optionalHint returnType) fun _ =>
          files_bind (block_files body) fun _ => files_add rfl span
  | .arrowFunction span list returnType body => by
      rw [expression]
      exact files_bind (parameters_files list) fun _ =>
        files_bind (files_optionalHint returnType) fun _ =>
          files_bind (expression_files body) fun _ => files_add rfl span
  | .binary span left right
  | .assignment span left right
  | .arrayAccess span left right => by
      rw [expression]
      exact files_bind (expression_files left) fun _ =>
        files_bind (expression_files right) fun _ => files_add rfl span
  | .prefixed span operand
  | .stepped span operand => by
      rw [expression]
      exact files_bind (expression_files operand) fun _ => files_add rfl span
  | .conditional span condition consequent alternative => by
      rw [expression]
      exact files_bind (expression_files condition) fun _ =>
        files_bind (optionalExpression_files consequent) fun _ =>
          files_bind (expression_files alternative) fun _ => files_add rfl span

theorem optionalExpression_files : ∀ held : Option Expr, Files (optionalExpression held)
  | none => by
      rw [optionalExpression]
      exact files_pure none
  | some held => by
      rw [optionalExpression]
      exact files_map some (expression_files held)

theorem expressions_files : ∀ list : List Expr, Files (expressions list)
  | [] => by
      rw [expressions]
      exact files_pure []
  | first :: rest => by
      rw [expressions]
      exact files_cons (expression_files first) (expressions_files rest)

theorem argumentList_files : ∀ list : ArgumentList,
    FilesAs (argumentList list) fun tree id => tree.kind? id = some .argumentList
  | .mk span list => by
      rw [argumentList]
      intro tree
      obtain ⟨files, kinds⟩ := arguments_files list tree
      have suits : ∀ child ∈ (Shape.argumentList (arguments list tree).1).children,
          (arguments list tree).2.Suits child.1 child.2 := by
        simpa [Shape.children, Shape.tagged, Suits, Slot.content?] using kinds
      have made := files_appended suits span
      exact ⟨files.trans made.toFiles, made.kind⟩

theorem optionalArgumentList_files : ∀ held : Option ArgumentList,
    FilesAs (optionalArgumentList held) fun tree list =>
      ∀ id ∈ list, tree.kind? id = some .argumentList
  | none => by
      rw [optionalArgumentList]
      exact fun tree => ⟨files_pure none tree, nofun⟩
  | some held => by
      rw [optionalArgumentList]
      intro tree
      obtain ⟨files, kind⟩ := argumentList_files held tree
      refine ⟨files, ?_⟩
      rintro id ⟨⟩
      exact kind

theorem arguments_files : ∀ list : List Argument,
    FilesAs (arguments list) fun tree ids => ∀ id ∈ ids, tree.kind? id = some .argument
  | [] => by
      rw [arguments]
      exact fun tree => ⟨files_pure [] tree, nofun⟩
  | first :: rest => by
      rw [arguments]
      intro tree
      obtain ⟨files, kind⟩ := argument_files first tree
      obtain ⟨further, kinds⟩ := arguments_files rest (argument first tree).2
      refine ⟨files.trans further, ?_⟩
      intro id member
      rcases List.mem_cons.mp member with rfl | later
      · exact further.kinds kind
      · exact kinds id later

theorem argument_files : ∀ a : Argument,
    FilesAs (argument a) fun tree id => tree.kind? id = some .argument
  | .positional span _ value
  | .named span _ value => by
      rw [argument]
      exact fun tree => files_valued (expression_files value) _ _ span tree

theorem elements_files : ∀ list : List Element, Files (elements list)
  | [] => by
      rw [elements]
      exact files_pure []
  | first :: rest => by
      rw [elements]
      exact files_cons (element_files first) (elements_files rest)

theorem element_files : ∀ e : Element, Files (element e)
  | .keyValue span key value => by
      rw [element]
      exact files_bind (expression_files key) fun _ =>
        files_bind (expression_files value) fun _ => files_add rfl span
  | .value span value
  | .variadic span value => by
      rw [element]
      exact files_bind (expression_files value) fun _ => files_add rfl span
  | .missing span => by
      rw [element]
      exact files_add rfl span

theorem parameters_files : ∀ list : List Parameter, Files (parameters list)
  | [] => by
      rw [parameters]
      exact files_pure []
  | first :: rest => by
      rw [parameters]
      exact files_cons (parameter_files first) (parameters_files rest)

theorem parameter_files : ∀ p : Parameter, Files (parameter p)
  | .mk span hint byRef variadic name default => by
      rw [parameter]
      exact files_bind (files_optionalHint hint) fun _ =>
        files_bind (files_variableNode name) fun _ =>
          files_bind (optionalExpression_files default) fun _ => files_add rfl span

theorem statement_files : ∀ s : Statement, Files (statement s)
  | .expression span e => by
      rw [statement]
      exact files_bind (expression_files e) fun _ => files_add rfl span
  | .block body => by
      rw [statement]
      exact block_files body
  | .namespaced span body => by
      rw [statement]
      exact files_bind (statements_files body) fun _ => files_add rfl span
  | .classLike span form list => by
      rw [statement]
      exact files_bind (methods_files list) fun _ => files_add rfl span
  | .function span list returnType body => by
      rw [statement]
      exact files_bind (parameters_files list) fun _ =>
        files_bind (files_optionalHint returnType) fun _ =>
          files_bind (block_files body) fun _ => files_add rfl span
  | .branch span condition body elseIfs otherwise => by
      rw [statement]
      exact files_bind (expression_files condition) fun _ =>
        files_bind (statements_files body) fun _ =>
          files_bind (elseIfClauses_files elseIfs) fun _ =>
            files_bind (statements_files otherwise) fun _ => files_add rfl span
  | .whileLoop span condition body
  | .foreachLoop span condition body
  | .switch span condition body => by
      rw [statement]
      exact files_bind (expression_files condition) fun _ =>
        files_bind (statements_files body) fun _ => files_add rfl span
  | .doWhile span body condition => by
      rw [statement]
      exact files_bind (statement_files body) fun _ =>
        files_bind (expression_files condition) fun _ => files_add rfl span
  | .forLoop span initial conditions steps body => by
      rw [statement]
      exact files_bind (expressions_files initial) fun _ =>
        files_bind (expressions_files conditions) fun _ =>
          files_bind (expressions_files steps) fun _ =>
            files_bind (statements_files body) fun _ => files_add rfl span
  | .tryCatch span list => by
      rw [statement]
      exact files_bind (blocks_files list) fun _ => files_add rfl span
  | .returned span value => by
      rw [statement]
      exact files_bind (optionalExpression_files value) fun _ => files_add rfl span
  | .echo span values => by
      rw [statement]
      exact files_bind (expressions_files values) fun _ => files_add rfl span
  | .other span => by
      rw [statement]
      exact files_add rfl span

theorem statements_files : ∀ list : List Statement, Files (statements list)
  | [] => by
      rw [statements]
      exact files_pure []
  | first :: rest => by
      rw [statements]
      exact files_cons (statement_files first) (statements_files rest)

theorem elseIfClauses_files : ∀ list : List ElseIf, Files (elseIfClauses list)
  | [] => by
      rw [elseIfClauses]
      exact files_pure []
  | .mk condition body :: rest => by
      rw [elseIfClauses]
      exact files_bind (expression_files condition) fun _ =>
        files_bind (statements_files body) fun _ =>
          files_bind (elseIfClauses_files rest) fun _ => files_pure _

theorem block_files : ∀ b : Block, Files (block b)
  | .mk span body => by
      rw [block]
      exact files_bind (statements_files body) fun _ => files_add rfl span

theorem optionalBlock_files : ∀ held : Option Block, Files (optionalBlock held)
  | none => by
      rw [optionalBlock]
      exact files_pure none
  | some held => by
      rw [optionalBlock]
      exact files_map some (block_files held)

theorem blocks_files : ∀ list : List Block, Files (blocks list)
  | [] => by
      rw [blocks]
      exact files_pure []
  | first :: rest => by
      rw [blocks]
      exact files_cons (block_files first) (blocks_files rest)

theorem methods_files : ∀ list : List Method, Files (methods list)
  | [] => by
      rw [methods]
      exact files_pure []
  | first :: rest => by
      rw [methods]
      exact files_cons (method_files first) (methods_files rest)

theorem method_files : ∀ m : Method, Files (method m)
  | .mk span name list returnType body => by
      rw [method]
      exact files_bind (files_textOf _) fun _ =>
        files_bind (files_nameNode name) fun _ =>
          files_bind (parameters_files list) fun _ =>
            files_bind (files_optionalHint returnType) fun _ =>
              files_bind (optionalBlock_files body) fun _ => files_add rfl span

end

end OfProgram

theorem empty_filed (source : String) : (Tree.empty source).Filed := by
  constructor
  · intro parent child held
    obtain ⟨shape, found, member⟩ := shape?_of_child held
    cases shape_of_empty found
    cases member
  · rfl

/-- The tree of a program is filed, whatever the spans of the program are. -/
theorem ofProgram_filed (source : String) (program : List Statement) :
    (ofProgram source program).Filed := by
  let statements := OfProgram.statements program (Tree.empty source)
  let added := OfProgram.add (.program statements.1) ⟨0, source.utf8ByteSize⟩ statements.2
  have read := (OfProgram.statements_files program (Tree.empty source)).filed (empty_filed source)
  have filed : added.2.Filed := (OfProgram.files_add rfl _ statements.2).filed read
  have made : ofProgram source program = added.2.setRoot added.1 := rfl
  constructor
  · intro parent child held kind wants
    rw [made, children_setRoot] at held
    rw [made, kind?, shape?_setRoot]
    exact filed.suits held kind wants
  · exact ofProgram_rooted

end Codemod.Tree
