import Codemod.Proofs.Print.Intact
import Codemod.Proofs.Tree.Rework

/-!
What is read is fit for rules. A literal is taken for a string only by its opening quote, and quotes
are one byte long; so a tree that comes from the reader is proper, holds every node once, and has
the program at its root.
-/

namespace Codemod

open Php

-- A literal is of the kind that its spelling shows.
def Shape.Legible : Shape → Prop
  | .literal spelled => spelled.kind = Tree.OfProgram.literalKind spelled.raw
  | _ => True

theorem Literal.not_misquoted {literal : Literal} (legible : (Shape.literal literal).Legible) :
    literal.misquoted = false := by
  unfold misquoted
  cases quoted : literal.quote? with
  | none => rfl
  | some c =>
      unfold quote? at quoted
      split at quoted
      · next first rest string spelling =>
          obtain ⟨_, same⟩ := Option.ite_none_right_eq_some.mp quoted
          cases same
          -- Only an opening quote or the mark of a heredoc makes a literal a string.
          have opens : c = '\'' ∨ c = '"' ∨ c = '<' := by
            by_contra other
            simp only [not_or] at other
            have kind : Tree.OfProgram.literalKind literal.raw ≠ .string := by
              simp only [Tree.OfProgram.literalKind, spelling]
              rw [if_neg (by simp [other, Ne.symm other.2.2])]
              split
              · exact nofun
              · exact nofun
              · exact nofun
              · split <;> exact nofun
            exact kind (legible.symm.trans string)
          rcases opens with rfl | rfl | rfl <;> decide
      · cases quoted

namespace Tree

def Legible (tree : Tree) : Prop :=
  ∀ id shape, tree.shape? id = some shape → shape.Legible

theorem shape?_appendParsed (tree : Tree) (shape : Shape) (span : Span) (id : NodeId) :
    (tree.appendParsed shape span).2.shape? id
      = if id = ⟨tree.size⟩ then some shape else tree.shape? id := by
  rw [appendParsed, shape?_adopt, shape?, node?_append]
  split <;> rfl

namespace OfProgram

def Legibly {α : Type} (step : Build α) : Prop :=
  ∀ tree : Tree, tree.Legible → (step tree).2.Legible

section

variable {α β : Type} {step : Build α}

theorem legibly_pure (value : α) : Legibly (pure value) :=
  fun _ legible => legible

theorem legibly_bind {next : α → Build β} (first : Legibly step)
    (second : ∀ value, Legibly (next value)) : Legibly (step >>= next) :=
  fun tree legible => second _ _ (first tree legible)

theorem legibly_map (f : α → β) (legibly : Legibly step) : Legibly (f <$> step) :=
  fun tree legible => legibly tree legible

theorem legibly_add {shape : Shape} {span : Span} (legible : shape.Legible) :
    Legibly (add shape span) := by
  intro tree before id other found
  rw [add, shape?_appendParsed] at found
  split at found
  · cases found
    exact legible
  · exact before id other found

theorem legibly_textOf (span : Span) : Legibly (textOf span) :=
  fun _ legible => legible

theorem legibly_cons {first : Build α} {rest : Build (List α)} (head : Legibly first)
    (tail : Legibly rest) : Legibly (do let value ← first; return value :: (← rest)) :=
  legibly_bind head fun _ => legibly_bind tail fun _ => legibly_pure _

end

theorem legibly_verbatim (label : String) (span : Span) (parts : List NodeId) :
    Legibly (verbatim label span parts) :=
  legibly_add trivial

theorem legibly_nameNode (span : Span) : Legibly (nameNode span) :=
  legibly_bind (legibly_textOf span) fun _ => legibly_add trivial

theorem legibly_variableNode (span : Span) : Legibly (variableNode span) :=
  legibly_bind (legibly_textOf span) fun _ => legibly_add trivial

theorem legibly_literalNode (span : Span) : Legibly (literalNode span) :=
  legibly_bind (legibly_textOf span) fun _ => legibly_add rfl

theorem legibly_selectorNode (label : String) (selector : Selector) :
    Legibly (selectorNode label selector) := by
  cases selector with
  | identifier span => exact legibly_nameNode span
  | other span => exact legibly_verbatim label span []

theorem legibly_hintNode (hint : Hint) : Legibly (hintNode hint) := by
  induction hint with
  | name span => exact legibly_nameNode span
  | wrapped span inner ih => exact legibly_bind ih fun _ => legibly_verbatim _ _ _
  | joined span left right leftIh rightIh =>
      exact legibly_bind leftIh fun _ => legibly_bind rightIh fun _ => legibly_verbatim _ _ _

theorem legibly_optionalHint (hint : Option Hint) : Legibly (optionalHint hint) := by
  cases hint with
  | none => exact legibly_pure none
  | some hint => exact legibly_map some (legibly_hintNode hint)

theorem legibly_nameOr (e : Expr) {other : Build NodeId} (legibly : Legibly other) :
    Legibly (nameOr e other) := by
  refine legibly_bind (legibly_textOf e.span) fun text => ?_
  split
  · exact legibly_nameNode e.span
  · exact legibly

mutual

theorem legibly_expression : ∀ e : Expr, Legibly (expression e)
  | .functionCall span callee list => by
      rw [expression]
      exact legibly_bind (legibly_nameOr callee (legibly_expression callee)) fun _ =>
        legibly_bind (legibly_argumentList list) fun _ => legibly_add trivial
  | .methodCall span object method list nullsafe => by
      rw [expression]
      exact legibly_bind (legibly_expression object) fun _ =>
        legibly_bind (legibly_selectorNode _ method) fun _ =>
          legibly_bind (legibly_argumentList list) fun _ => legibly_add trivial
  | .staticCall span className method list => by
      rw [expression]
      exact legibly_bind (legibly_nameOr className (legibly_expression className)) fun _ =>
        legibly_bind (legibly_selectorNode _ method) fun _ =>
          legibly_bind (legibly_argumentList list) fun _ => legibly_add trivial
  | .instantiation span className list => by
      rw [expression]
      exact legibly_bind (legibly_nameOr className (legibly_expression className)) fun _ =>
        legibly_bind (legibly_optionalArgumentList list) fun _ => legibly_add trivial
  | .classConstant span className constant => by
      rw [expression]
      exact legibly_bind (legibly_nameOr className (legibly_expression className)) fun _ =>
        legibly_bind (legibly_selectorNode _ constant) fun _ => legibly_add trivial
  | .array span items legacy => by
      rw [expression]
      exact legibly_bind (legibly_elements items) fun _ => legibly_add trivial
  | .parenthesized span inner => by
      rw [expression]
      exact legibly_bind (legibly_expression inner) fun _ => legibly_add trivial
  | .literal span => by
      rw [expression]
      exact legibly_literalNode span
  | .variable span => by
      rw [expression]
      exact legibly_variableNode span
  | .identifier span => by
      rw [expression]
      exact legibly_nameNode span
  | .constant span
  | .other span => by
      rw [expression]
      exact legibly_verbatim _ _ _
  | .closure span list returnType body => by
      rw [expression]
      exact legibly_bind (legibly_parameters list) fun _ =>
        legibly_bind (legibly_optionalHint returnType) fun _ =>
          legibly_bind (legibly_block body) fun _ => legibly_verbatim _ _ _
  | .arrowFunction span list returnType body => by
      rw [expression]
      exact legibly_bind (legibly_parameters list) fun _ =>
        legibly_bind (legibly_optionalHint returnType) fun _ =>
          legibly_bind (legibly_expression body) fun _ => legibly_verbatim _ _ _
  | .binary span left right
  | .assignment span left right
  | .arrayAccess span left right => by
      rw [expression]
      exact legibly_bind (legibly_expression left) fun _ =>
        legibly_bind (legibly_expression right) fun _ => legibly_verbatim _ _ _
  | .prefixed span operand
  | .stepped span operand => by
      rw [expression]
      exact legibly_bind (legibly_expression operand) fun _ => legibly_verbatim _ _ _
  | .conditional span condition consequent alternative => by
      rw [expression]
      exact legibly_bind (legibly_expression condition) fun _ =>
        legibly_bind (legibly_optionalExpression consequent) fun _ =>
          legibly_bind (legibly_expression alternative) fun _ => legibly_verbatim _ _ _

theorem legibly_optionalExpression : ∀ held : Option Expr, Legibly (optionalExpression held)
  | none => by
      rw [optionalExpression]
      exact legibly_pure none
  | some held => by
      rw [optionalExpression]
      exact legibly_map some (legibly_expression held)

theorem legibly_expressions : ∀ list : List Expr, Legibly (expressions list)
  | [] => by
      rw [expressions]
      exact legibly_pure []
  | first :: rest => by
      rw [expressions]
      exact legibly_cons (legibly_expression first) (legibly_expressions rest)

theorem legibly_argumentList : ∀ list : ArgumentList, Legibly (argumentList list)
  | .mk span list => by
      rw [argumentList]
      exact legibly_bind (legibly_arguments list) fun _ => legibly_add trivial

theorem legibly_optionalArgumentList : ∀ held : Option ArgumentList,
    Legibly (optionalArgumentList held)
  | none => by
      rw [optionalArgumentList]
      exact legibly_pure none
  | some held => by
      rw [optionalArgumentList]
      exact legibly_map some (legibly_argumentList held)

theorem legibly_arguments : ∀ list : List Argument, Legibly (arguments list)
  | [] => by
      rw [arguments]
      exact legibly_pure []
  | first :: rest => by
      rw [arguments]
      exact legibly_cons (legibly_argument first) (legibly_arguments rest)

theorem legibly_argument : ∀ a : Argument, Legibly (argument a)
  | .positional span _ value
  | .named span _ value => by
      rw [argument]
      exact legibly_bind (legibly_textOf _) fun _ =>
        legibly_bind (legibly_expression value) fun _ => legibly_add trivial

theorem legibly_elements : ∀ list : List Element, Legibly (elements list)
  | [] => by
      rw [elements]
      exact legibly_pure []
  | first :: rest => by
      rw [elements]
      exact legibly_cons (legibly_element first) (legibly_elements rest)

theorem legibly_element : ∀ e : Element, Legibly (element e)
  | .keyValue span key value => by
      rw [element]
      exact legibly_bind (legibly_expression key) fun _ =>
        legibly_bind (legibly_expression value) fun _ => legibly_add trivial
  | .value span value
  | .variadic span value => by
      rw [element]
      exact legibly_bind (legibly_expression value) fun _ => legibly_add trivial
  | .missing span => by
      rw [element]
      exact legibly_verbatim _ _ _

theorem legibly_parameters : ∀ list : List Parameter, Legibly (parameters list)
  | [] => by
      rw [parameters]
      exact legibly_pure []
  | first :: rest => by
      rw [parameters]
      exact legibly_cons (legibly_parameter first) (legibly_parameters rest)

theorem legibly_parameter : ∀ p : Parameter, Legibly (parameter p)
  | .mk span hint byRef variadic name default => by
      rw [parameter]
      exact legibly_bind (legibly_optionalHint hint) fun _ =>
        legibly_bind (legibly_variableNode name) fun _ =>
          legibly_bind (legibly_optionalExpression default) fun _ => legibly_add trivial

theorem legibly_statement : ∀ s : Statement, Legibly (statement s)
  | .expression span e => by
      rw [statement]
      exact legibly_bind (legibly_expression e) fun _ => legibly_add trivial
  | .block body => by
      rw [statement]
      exact legibly_block body
  | .namespaced span body => by
      rw [statement]
      exact legibly_bind (legibly_statements body) fun _ => legibly_verbatim _ _ _
  | .classLike span form list => by
      rw [statement]
      exact legibly_bind (legibly_methods list) fun _ => legibly_verbatim _ _ _
  | .function span list returnType body => by
      rw [statement]
      exact legibly_bind (legibly_parameters list) fun _ =>
        legibly_bind (legibly_optionalHint returnType) fun _ =>
          legibly_bind (legibly_block body) fun _ => legibly_verbatim _ _ _
  | .branch span condition body elseIfs otherwise => by
      rw [statement]
      exact legibly_bind (legibly_expression condition) fun _ =>
        legibly_bind (legibly_statements body) fun _ =>
          legibly_bind (legibly_elseIfClauses elseIfs) fun _ =>
            legibly_bind (legibly_statements otherwise) fun _ => legibly_verbatim _ _ _
  | .whileLoop span condition body
  | .foreachLoop span condition body
  | .switch span condition body => by
      rw [statement]
      exact legibly_bind (legibly_expression condition) fun _ =>
        legibly_bind (legibly_statements body) fun _ => legibly_verbatim _ _ _
  | .doWhile span body condition => by
      rw [statement]
      exact legibly_bind (legibly_statement body) fun _ =>
        legibly_bind (legibly_expression condition) fun _ => legibly_verbatim _ _ _
  | .forLoop span initial conditions steps body => by
      rw [statement]
      exact legibly_bind (legibly_expressions initial) fun _ =>
        legibly_bind (legibly_expressions conditions) fun _ =>
          legibly_bind (legibly_expressions steps) fun _ =>
            legibly_bind (legibly_statements body) fun _ => legibly_verbatim _ _ _
  | .tryCatch span list => by
      rw [statement]
      exact legibly_bind (legibly_blocks list) fun _ => legibly_verbatim _ _ _
  | .returned span value => by
      rw [statement]
      exact legibly_bind (legibly_optionalExpression value) fun _ => legibly_verbatim _ _ _
  | .echo span values => by
      rw [statement]
      exact legibly_bind (legibly_expressions values) fun _ => legibly_verbatim _ _ _
  | .other span => by
      rw [statement]
      exact legibly_verbatim _ _ _

theorem legibly_statements : ∀ list : List Statement, Legibly (statements list)
  | [] => by
      rw [statements]
      exact legibly_pure []
  | first :: rest => by
      rw [statements]
      exact legibly_cons (legibly_statement first) (legibly_statements rest)

theorem legibly_elseIfClauses : ∀ list : List ElseIf, Legibly (elseIfClauses list)
  | [] => by
      rw [elseIfClauses]
      exact legibly_pure []
  | .mk condition body :: rest => by
      rw [elseIfClauses]
      exact legibly_bind (legibly_expression condition) fun _ =>
        legibly_bind (legibly_statements body) fun _ =>
          legibly_bind (legibly_elseIfClauses rest) fun _ => legibly_pure _

theorem legibly_block : ∀ b : Block, Legibly (block b)
  | .mk span body => by
      rw [block]
      exact legibly_bind (legibly_statements body) fun _ => legibly_add trivial

theorem legibly_optionalBlock : ∀ held : Option Block, Legibly (optionalBlock held)
  | none => by
      rw [optionalBlock]
      exact legibly_pure none
  | some held => by
      rw [optionalBlock]
      exact legibly_map some (legibly_block held)

theorem legibly_blocks : ∀ list : List Block, Legibly (blocks list)
  | [] => by
      rw [blocks]
      exact legibly_pure []
  | first :: rest => by
      rw [blocks]
      exact legibly_cons (legibly_block first) (legibly_blocks rest)

theorem legibly_methods : ∀ list : List Method, Legibly (methods list)
  | [] => by
      rw [methods]
      exact legibly_pure []
  | first :: rest => by
      rw [methods]
      exact legibly_cons (legibly_method first) (legibly_methods rest)

theorem legibly_method : ∀ m : Method, Legibly (method m)
  | .mk span name list returnType body => by
      rw [method]
      exact legibly_bind (legibly_textOf _) fun _ =>
        legibly_bind (legibly_nameNode name) fun _ =>
          legibly_bind (legibly_parameters list) fun _ =>
            legibly_bind (legibly_optionalHint returnType) fun _ =>
              legibly_bind (legibly_optionalBlock body) fun _ => legibly_add trivial

end

end OfProgram

variable {source : String} {program : List Statement}

theorem shape?_ofProgram (id : NodeId) :
    (ofProgram source program).shape? id = if id = (ofProgram source program).root
      then some (.program (OfProgram.statements program (Tree.empty source)).1)
      else (OfProgram.statements program (Tree.empty source)).2.shape? id := by
  have made : ofProgram source program
      = ((OfProgram.statements program (Tree.empty source)).2.appendParsed
          (.program (OfProgram.statements program (Tree.empty source)).1)
          ⟨0, source.utf8ByteSize⟩).2.setRoot
        ⟨(OfProgram.statements program (Tree.empty source)).2.size⟩ := rfl
  rw [made, shape?_setRoot, shape?_appendParsed]
  rfl

theorem ofProgram_rooted :
    (ofProgram source program).kind? (ofProgram source program).root = some .program := by
  rw [kind?, shape?_ofProgram, if_pos rfl]
  rfl

theorem shape_of_empty {id : NodeId} {shape : Shape}
    (found : (Tree.empty source).shape? id = some shape) : shape = .program [] := by
  obtain ⟨node, present, rfl⟩ := Option.map_eq_some_iff.mp found
  rw [node_of_empty present]

theorem ofProgram_legible : (ofProgram source program).Legible := by
  have empty : (Tree.empty source).Legible := by
    intro id shape found
    cases shape_of_empty found
    trivial
  intro id shape found
  rw [shape?_ofProgram] at found
  split at found
  · cases found
    trivial
  · exact OfProgram.legibly_statements program _ empty id shape found

/-- Whatever the spans are, what is read holds every node once. -/
theorem ofProgram_tidy : (ofProgram source program).Tidy (ofProgram source program).root :=
  heldOnce_iff_tidy.mp (ofProgram_read source program).intact.heldOnce

/-- Where spans lie in each other as the constructs do, the tree is fit to be printed. -/
theorem ofProgram_proper
    (inner : ∀ place ∈ statementPlaces program, Text.Laid source place.1 place.2)
    (outer : Text.Laid source ⟨0, source.utf8ByteSize⟩ (program.map Statement.span)) :
    (ofProgram source program).Proper := by
  have fits : OfProgram.Fit (Text.Laid source) (statementPlaces program) :=
    fun place member => ⟨inner place member, (inner place member).sublist (List.nil_sublist _)⟩
  have fresh := ofProgram_fresh fits outer
  refine ⟨fresh.sound, fun found => Literal.not_misquoted (ofProgram_legible _ _ found), ?_⟩
  rintro id ⟨node, found, verbatim, spanless⟩
  by_cases first : id.index = 0
  · -- The first node is the empty program that reading began with.
    have start : id = ⟨0⟩ := congrArg NodeId.mk first
    rw [start, fresh.first] at found
    cases found
    cases verbatim
  · have inside : id.index < (ofProgram source program).size :=
      (Array.getElem?_eq_some_iff.mp found).1
    obtain ⟨again, read⟩ := fresh.read id (Nat.pos_of_ne_zero first) inside
    cases read.found.symm.trans found
    obtain ⟨span, spanned, _⟩ := read.spanned
    rw [spanless] at spanned
    cases spanned

end Tree

end Codemod
