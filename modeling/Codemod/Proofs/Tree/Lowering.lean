import Codemod.Proofs.Tree.Places
import Codemod.Proofs.Tree.Reading

/-!
Reading a program goes through it once: each construct becomes one loose node with the span of the
construct, holding the nodes of its parts. The statements follow the recursion of the reader.
-/

namespace Codemod.Tree.OfProgram

open Php

variable {fits : Span → List Span → Prop}

def Fit (fits : Span → List Span → Prop) (places : List (Span × List Span)) : Prop :=
  ∀ place ∈ places, fits place.1 place.2 ∧ fits place.1 []

@[simp] theorem fit_cons {place : Span × List Span} {places : List (Span × List Span)} :
    Fit fits (place :: places) ↔ (fits place.1 place.2 ∧ fits place.1 []) ∧ Fit fits places :=
  List.forall_mem_cons

@[simp] theorem fit_append {places others : List (Span × List Span)} :
    Fit fits (places ++ others) ↔ Fit fits places ∧ Fit fits others :=
  List.forall_mem_append

theorem leaf_lowers {label : String} {span : Span} (fit : fits span []) :
    Lowers fits (leaf label span) (fun id => [id]) [span] :=
  fun _ => leaves_add rfl fit

theorem nameNode_lowers {span : Span} (fit : fits span []) :
    Lowers fits (nameNode span) (fun id => [id]) [span] :=
  fun _ => leaves_bind (textOf_lowers span) fun _ => leaves_add rfl fit

theorem variableNode_lowers {span : Span} (fit : fits span []) :
    Lowers fits (variableNode span) (fun id => [id]) [span] :=
  fun _ => leaves_bind (textOf_lowers span) fun _ => leaves_add rfl fit

theorem literalNode_lowers {span : Span} (fit : fits span []) :
    Lowers fits (literalNode span) (fun id => [id]) [span] :=
  fun _ => leaves_bind (textOf_lowers span) fun _ => leaves_add rfl fit

theorem selectorNode_lowers {label : String} (selector : Selector)
    (fit : Fit fits selector.places) :
    Lowers fits (selectorNode label selector) (fun id => [id]) [selector.span] := by
  simp only [Selector.places, fit_cons] at fit
  cases selector with
  | identifier span => exact nameNode_lowers fit.1.1
  | other span => exact leaf_lowers fit.1.1

theorem verbatim_leaves {base : Tree} {loose parts : List NodeId} {spans : List Span}
    {label : String} {span : Span} (all : parts = loose) (fit : fits span spans) :
    Leaves fits base loose spans (verbatim label span parts) (fun id => [id]) [span] := by
  apply leaves_add _ fit
  rw [Shape.children, Shape.map_snd_tagged, all]

theorem hintNode_lowers (hint : Hint) (fit : Fit fits hint.places) :
    Lowers fits (hintNode hint) (fun id => [id]) [hint.span] := by
  induction hint with
  | name span =>
      simp only [Hint.places, fit_cons] at fit
      exact nameNode_lowers fit.1.1
  | wrapped span inner ih =>
      simp only [Hint.places, fit_cons] at fit
      exact fun _ => leaves_bind (ih fit.2) fun _ => verbatim_leaves rfl fit.1.1
  | joined span left right leftIh rightIh =>
      simp only [Hint.places, fit_cons, fit_append, List.cons_append] at fit
      exact fun _ => leaves_bind (leftIh fit.2.1) fun _ =>
        leaves_bind (rightIh fit.2.2) fun _ => verbatim_leaves rfl fit.1.1

theorem optionalHint_lowers (hint : Option Hint) (fit : Fit fits (hintPlaces hint)) :
    Lowers fits (optionalHint hint) Option.toList (hintSpans hint) := by
  cases hint with
  | none => exact lowers_none rfl
  | some hint =>
      simp only [hintPlaces, Option.toList_some, List.flatMap_cons, List.flatMap_nil,
        List.append_nil] at fit
      exact lowers_some (hintNode_lowers hint fit)

theorem nameOr_lowers {e : Expr} {other : Build NodeId} (fit : Fit fits e.places)
    (lowers : Lowers fits other (fun id => [id]) [e.span]) :
    Lowers fits (nameOr e other) (fun id => [id]) [e.span] := by
  obtain ⟨inner, member⟩ := e.mem_places
  intro base
  refine leaves_bind (textOf_lowers e.span) fun text => ?_
  split
  · exact nameNode_lowers (fit _ member).2 base
  · exact lowers base

mutual

-- For each construct the parts leave loose nodes, which the node of the construct then takes up.
theorem expression_lowers : ∀ e : Expr, Fit fits e.places →
    Lowers fits (expression e) (fun id => [id]) [e.span]
  | .functionCall span callee list, fit => by
      simp only [Expr.places, fit_cons, fit_append, List.cons_append] at fit
      rw [expression]
      intro base
      refine leaves_bind (nameOr_lowers fit.2.1 (expression_lowers callee fit.2.1)) fun _ => ?_
      refine leaves_bind (argumentList_lowers list fit.2.2) fun _ => ?_
      exact leaves_add rfl fit.1.1
  | .methodCall span object method list nullsafe, fit => by
      simp only [Expr.places, fit_cons, fit_append, List.cons_append] at fit
      rw [expression]
      intro base
      refine leaves_bind (expression_lowers object fit.2.1.1) fun _ => ?_
      refine leaves_bind (selectorNode_lowers method fit.2.1.2) fun _ => ?_
      refine leaves_bind (argumentList_lowers list fit.2.2) fun _ => ?_
      exact leaves_add rfl fit.1.1
  | .staticCall span className method list, fit => by
      simp only [Expr.places, fit_cons, fit_append, List.cons_append] at fit
      rw [expression]
      intro base
      refine leaves_bind (nameOr_lowers fit.2.1.1 (expression_lowers className fit.2.1.1)) fun _ => ?_
      refine leaves_bind (selectorNode_lowers method fit.2.1.2) fun _ => ?_
      refine leaves_bind (argumentList_lowers list fit.2.2) fun _ => ?_
      exact leaves_add rfl fit.1.1
  | .instantiation span className list, fit => by
      simp only [Expr.places, fit_cons, fit_append, List.cons_append] at fit
      rw [expression]
      intro base
      refine leaves_bind (nameOr_lowers fit.2.1 (expression_lowers className fit.2.1)) fun _ => ?_
      refine leaves_bind (optionalArgumentList_lowers list fit.2.2) fun _ => ?_
      exact leaves_add (by simp [Shape.children]) fit.1.1
  | .classConstant span className constant, fit => by
      simp only [Expr.places, fit_cons, fit_append, List.cons_append] at fit
      rw [expression]
      intro base
      refine leaves_bind (nameOr_lowers fit.2.1 (expression_lowers className fit.2.1)) fun _ => ?_
      refine leaves_bind (selectorNode_lowers constant fit.2.2) fun _ => ?_
      exact leaves_add rfl fit.1.1
  | .array span items legacy, fit => by
      simp only [Expr.places, fit_cons] at fit
      rw [expression]
      intro base
      refine leaves_bind (elements_lowers items fit.2) fun _ => ?_
      exact leaves_add (by simp [Shape.children]) fit.1.1
  | .parenthesized span inner, fit => by
      simp only [Expr.places, fit_cons] at fit
      rw [expression]
      intro base
      refine leaves_bind (expression_lowers inner fit.2) fun _ => ?_
      exact leaves_add rfl fit.1.1
  | .literal span, fit => by
      simp only [Expr.places, fit_cons] at fit
      rw [expression]
      exact literalNode_lowers fit.1.1
  | .variable span, fit => by
      simp only [Expr.places, fit_cons] at fit
      rw [expression]
      exact variableNode_lowers fit.1.1
  | .identifier span, fit => by
      simp only [Expr.places, fit_cons] at fit
      rw [expression]
      exact nameNode_lowers fit.1.1
  | .constant span, fit
  | .other span, fit => by
      simp only [Expr.places, fit_cons] at fit
      rw [expression]
      exact leaf_lowers fit.1.1
  | .closure span list returnType body, fit => by
      simp only [Expr.places, fit_cons, fit_append, List.cons_append] at fit
      rw [expression]
      intro base
      refine leaves_bind (parameters_lowers list fit.2.1.1) fun _ => ?_
      refine leaves_bind (optionalHint_lowers returnType fit.2.1.2) fun _ => ?_
      refine leaves_bind (block_lowers body fit.2.2) fun _ => ?_
      exact verbatim_leaves rfl fit.1.1
  | .arrowFunction span list returnType body, fit => by
      simp only [Expr.places, fit_cons, fit_append, List.cons_append] at fit
      rw [expression]
      intro base
      refine leaves_bind (parameters_lowers list fit.2.1.1) fun _ => ?_
      refine leaves_bind (optionalHint_lowers returnType fit.2.1.2) fun _ => ?_
      refine leaves_bind (expression_lowers body fit.2.2) fun _ => ?_
      exact verbatim_leaves rfl fit.1.1
  | .binary span left right, fit
  | .assignment span left right, fit
  | .arrayAccess span left right, fit => by
      simp only [Expr.places, fit_cons, fit_append, List.cons_append] at fit
      rw [expression]
      intro base
      refine leaves_bind (expression_lowers left fit.2.1) fun _ => ?_
      refine leaves_bind (expression_lowers right fit.2.2) fun _ => ?_
      exact verbatim_leaves rfl fit.1.1
  | .prefixed span operand, fit
  | .stepped span operand, fit => by
      simp only [Expr.places, fit_cons] at fit
      rw [expression]
      intro base
      refine leaves_bind (expression_lowers operand fit.2) fun _ => ?_
      exact verbatim_leaves rfl fit.1.1
  | .conditional span condition consequent alternative, fit => by
      simp only [Expr.places, fit_cons, fit_append, List.cons_append] at fit
      rw [expression]
      intro base
      refine leaves_bind (expression_lowers condition fit.2.1.1) fun _ => ?_
      refine leaves_bind (optionalExpression_lowers consequent fit.2.1.2) fun _ => ?_
      refine leaves_bind (expression_lowers alternative fit.2.2) fun _ => ?_
      exact verbatim_leaves rfl fit.1.1

theorem optionalExpression_lowers : ∀ held : Option Expr, Fit fits (optionalPlaces held) →
    Lowers fits (optionalExpression held) Option.toList (held.toList.map Expr.span)
  | none, _ => by
      rw [optionalExpression]
      exact lowers_none rfl
  | some held, fit => by
      rw [optionalPlaces] at fit
      rw [optionalExpression]
      exact lowers_some (expression_lowers held fit)

theorem expressions_lowers : ∀ list : List Expr, Fit fits (expressionPlaces list) →
    Lowers fits (expressions list) id (list.map Expr.span)
  | [], _ => by
      rw [expressions]
      exact lowers_none rfl
  | first :: rest, fit => by
      simp only [expressionPlaces, fit_append] at fit
      rw [expressions]
      exact lowers_cons (expression_lowers first fit.1) (expressions_lowers rest fit.2)

theorem argumentList_lowers : ∀ list : ArgumentList, Fit fits list.places →
    Lowers fits (argumentList list) (fun id => [id]) [list.span]
  | .mk span list, fit => by
      simp only [ArgumentList.places, fit_cons] at fit
      rw [argumentList]
      intro base
      refine leaves_bind (arguments_lowers list fit.2) fun _ => ?_
      exact leaves_add (by simp [Shape.children]) fit.1.1

theorem optionalArgumentList_lowers : ∀ held : Option ArgumentList, Fit fits (optionalListPlaces held) →
    Lowers fits (optionalArgumentList held) Option.toList (held.toList.map ArgumentList.span)
  | none, _ => by
      rw [optionalArgumentList]
      exact lowers_none rfl
  | some held, fit => by
      rw [optionalListPlaces] at fit
      rw [optionalArgumentList]
      exact lowers_some (argumentList_lowers held fit)

theorem arguments_lowers : ∀ list : List Argument, Fit fits (argumentPlaces list) →
    Lowers fits (arguments list) id (list.map Argument.span)
  | [], _ => by
      rw [arguments]
      exact lowers_none rfl
  | first :: rest, fit => by
      simp only [argumentPlaces, fit_append] at fit
      rw [arguments]
      exact lowers_cons (argument_lowers first fit.1) (arguments_lowers rest fit.2)

theorem argument_lowers : ∀ a : Argument, Fit fits a.places →
    Lowers fits (argument a) (fun id => [id]) [a.span]
  | .positional span _ value, fit
  | .named span _ value, fit => by
      simp only [Argument.places, fit_cons] at fit
      rw [argument]
      intro base
      refine leaves_bind (textOf_lowers _) fun _ => ?_
      refine leaves_bind (expression_lowers value fit.2) fun _ => ?_
      exact leaves_add rfl fit.1.1

theorem elements_lowers : ∀ list : List Element, Fit fits (elementPlaces list) →
    Lowers fits (elements list) id (list.map Element.span)
  | [], _ => by
      rw [elements]
      exact lowers_none rfl
  | first :: rest, fit => by
      simp only [elementPlaces, fit_append] at fit
      rw [elements]
      exact lowers_cons (element_lowers first fit.1) (elements_lowers rest fit.2)

theorem element_lowers : ∀ e : Element, Fit fits e.places →
    Lowers fits (element e) (fun id => [id]) [e.span]
  | .keyValue span key value, fit => by
      simp only [Element.places, fit_cons, fit_append, List.cons_append] at fit
      rw [element]
      intro base
      refine leaves_bind (expression_lowers key fit.2.1) fun _ => ?_
      refine leaves_bind (expression_lowers value fit.2.2) fun _ => ?_
      exact leaves_add rfl fit.1.1
  | .value span value, fit
  | .variadic span value, fit => by
      simp only [Element.places, fit_cons] at fit
      rw [element]
      intro base
      refine leaves_bind (expression_lowers value fit.2) fun _ => ?_
      exact leaves_add rfl fit.1.1
  | .missing span, fit => by
      simp only [Element.places, fit_cons] at fit
      rw [element]
      exact leaf_lowers fit.1.1

theorem parameters_lowers : ∀ list : List Parameter, Fit fits (parameterPlaces list) →
    Lowers fits (parameters list) id (list.map Parameter.span)
  | [], _ => by
      rw [parameters]
      exact lowers_none rfl
  | first :: rest, fit => by
      simp only [parameterPlaces, fit_append] at fit
      rw [parameters]
      exact lowers_cons (parameter_lowers first fit.1) (parameters_lowers rest fit.2)

theorem parameter_lowers : ∀ p : Parameter, Fit fits p.places →
    Lowers fits (parameter p) (fun id => [id]) [p.span]
  | .mk span hint byRef variadic name default, fit => by
      simp only [Parameter.places, fit_cons, fit_append, List.cons_append] at fit
      rw [parameter]
      intro base
      refine leaves_bind (optionalHint_lowers hint fit.2.1) fun _ => ?_
      refine leaves_bind (variableNode_lowers fit.2.2.1.1) fun _ => ?_
      refine leaves_bind (optionalExpression_lowers default fit.2.2.2) fun _ => ?_
      exact leaves_add (by simp [Shape.children]) (by simpa using fit.1.1)

theorem statement_lowers : ∀ s : Statement, Fit fits s.places →
    Lowers fits (statement s) (fun id => [id]) [s.span]
  | .expression span e, fit => by
      simp only [Statement.places, fit_cons] at fit
      rw [statement]
      intro base
      refine leaves_bind (expression_lowers e fit.2) fun _ => ?_
      exact leaves_add rfl fit.1.1
  | .block body, fit => by
      rw [Statement.places] at fit
      rw [statement]
      exact block_lowers body fit
  | .namespaced span body, fit => by
      simp only [Statement.places, fit_cons] at fit
      rw [statement]
      intro base
      refine leaves_bind (statements_lowers body fit.2) fun _ => ?_
      exact verbatim_leaves rfl fit.1.1
  | .classLike span form list, fit => by
      simp only [Statement.places, fit_cons] at fit
      rw [statement]
      intro base
      refine leaves_bind (methods_lowers list fit.2) fun _ => ?_
      exact verbatim_leaves rfl fit.1.1
  | .function span list returnType body, fit => by
      simp only [Statement.places, fit_cons, fit_append, List.cons_append] at fit
      rw [statement]
      intro base
      refine leaves_bind (parameters_lowers list fit.2.1.1) fun _ => ?_
      refine leaves_bind (optionalHint_lowers returnType fit.2.1.2) fun _ => ?_
      refine leaves_bind (block_lowers body fit.2.2) fun _ => ?_
      exact verbatim_leaves rfl fit.1.1
  | .branch span condition body elseIfs otherwise, fit => by
      simp only [Statement.places, fit_cons, fit_append, List.cons_append] at fit
      rw [statement]
      intro base
      refine leaves_bind (expression_lowers condition fit.2.1.1.1) fun _ => ?_
      refine leaves_bind (statements_lowers body fit.2.1.1.2) fun _ => ?_
      refine leaves_bind (elseIfClauses_lowers elseIfs fit.2.1.2) fun _ => ?_
      refine leaves_bind (statements_lowers otherwise fit.2.2) fun _ => ?_
      exact verbatim_leaves rfl fit.1.1
  | .whileLoop span condition body, fit
  | .foreachLoop span condition body, fit
  | .switch span condition body, fit => by
      simp only [Statement.places, fit_cons, fit_append, List.cons_append] at fit
      rw [statement]
      intro base
      refine leaves_bind (expression_lowers condition fit.2.1) fun _ => ?_
      refine leaves_bind (statements_lowers body fit.2.2) fun _ => ?_
      exact verbatim_leaves rfl fit.1.1
  | .doWhile span body condition, fit => by
      simp only [Statement.places, fit_cons, fit_append, List.cons_append] at fit
      rw [statement]
      intro base
      refine leaves_bind (statement_lowers body fit.2.1) fun _ => ?_
      refine leaves_bind (expression_lowers condition fit.2.2) fun _ => ?_
      exact verbatim_leaves rfl fit.1.1
  | .forLoop span initial conditions steps body, fit => by
      simp only [Statement.places, fit_cons, fit_append, List.cons_append] at fit
      rw [statement]
      intro base
      refine leaves_bind (expressions_lowers initial fit.2.1.1.1) fun _ => ?_
      refine leaves_bind (expressions_lowers conditions fit.2.1.1.2) fun _ => ?_
      refine leaves_bind (expressions_lowers steps fit.2.1.2) fun _ => ?_
      refine leaves_bind (statements_lowers body fit.2.2) fun _ => ?_
      exact verbatim_leaves rfl fit.1.1
  | .tryCatch span list, fit => by
      simp only [Statement.places, fit_cons] at fit
      rw [statement]
      intro base
      refine leaves_bind (blocks_lowers list fit.2) fun _ => ?_
      exact verbatim_leaves rfl fit.1.1
  | .returned span value, fit => by
      simp only [Statement.places, fit_cons] at fit
      rw [statement]
      intro base
      refine leaves_bind (optionalExpression_lowers value fit.2) fun _ => ?_
      exact verbatim_leaves rfl fit.1.1
  | .echo span values, fit => by
      simp only [Statement.places, fit_cons] at fit
      rw [statement]
      intro base
      refine leaves_bind (expressions_lowers values fit.2) fun _ => ?_
      exact verbatim_leaves rfl fit.1.1
  | .other span, fit => by
      simp only [Statement.places, fit_cons] at fit
      rw [statement]
      exact leaf_lowers fit.1.1

theorem statements_lowers : ∀ list : List Statement, Fit fits (statementPlaces list) →
    Lowers fits (statements list) id (list.map Statement.span)
  | [], _ => by
      rw [statements]
      exact lowers_none rfl
  | first :: rest, fit => by
      simp only [statementPlaces, fit_append] at fit
      rw [statements]
      exact lowers_cons (statement_lowers first fit.1) (statements_lowers rest fit.2)

theorem elseIfClauses_lowers : ∀ list : List ElseIf, Fit fits (elseIfPlaces list) →
    Lowers fits (elseIfClauses list) id (list.flatMap ElseIf.spans)
  | [], _ => by
      rw [elseIfClauses]
      exact lowers_none rfl
  | .mk condition body :: rest, fit => by
      simp only [elseIfPlaces, fit_append] at fit
      rw [elseIfClauses]
      intro base
      refine leaves_bind (expression_lowers condition fit.1.1) fun _ => ?_
      refine leaves_bind (statements_lowers body fit.1.2) fun _ => ?_
      refine leaves_bind (elseIfClauses_lowers rest fit.2) fun _ => ?_
      exact leaves_pure rfl

theorem block_lowers : ∀ b : Block, Fit fits b.places →
    Lowers fits (block b) (fun id => [id]) [b.span]
  | .mk span body, fit => by
      simp only [Block.places, fit_cons] at fit
      rw [block]
      intro base
      refine leaves_bind (statements_lowers body fit.2) fun _ => ?_
      exact leaves_add (by simp [Shape.children]) fit.1.1

theorem optionalBlock_lowers : ∀ held : Option Block, Fit fits (optionalBlockPlaces held) →
    Lowers fits (optionalBlock held) Option.toList (held.toList.map Block.span)
  | none, _ => by
      rw [optionalBlock]
      exact lowers_none rfl
  | some held, fit => by
      rw [optionalBlockPlaces] at fit
      rw [optionalBlock]
      exact lowers_some (block_lowers held fit)

theorem blocks_lowers : ∀ list : List Block, Fit fits (blockPlaces list) →
    Lowers fits (blocks list) id (list.map Block.span)
  | [], _ => by
      rw [blocks]
      exact lowers_none rfl
  | first :: rest, fit => by
      simp only [blockPlaces, fit_append] at fit
      rw [blocks]
      exact lowers_cons (block_lowers first fit.1) (blocks_lowers rest fit.2)

theorem methods_lowers : ∀ list : List Method, Fit fits (methodPlaces list) →
    Lowers fits (methods list) id (list.map Method.span)
  | [], _ => by
      rw [methods]
      exact lowers_none rfl
  | first :: rest, fit => by
      simp only [methodPlaces, fit_append] at fit
      rw [methods]
      exact lowers_cons (method_lowers first fit.1) (methods_lowers rest fit.2)

theorem method_lowers : ∀ m : Method, Fit fits m.places →
    Lowers fits (method m) (fun id => [id]) [m.span]
  | .mk span name list returnType body, fit => by
      simp only [Method.places, fit_cons, fit_append, List.cons_append] at fit
      rw [method]
      intro base
      refine leaves_bind (textOf_lowers _) fun _ => ?_
      refine leaves_bind (nameNode_lowers fit.2.1.1) fun _ => ?_
      refine leaves_bind (parameters_lowers list fit.2.2.1.1) fun _ => ?_
      refine leaves_bind (optionalHint_lowers returnType fit.2.2.1.2) fun _ => ?_
      refine leaves_bind (optionalBlock_lowers body fit.2.2.2) fun _ => ?_
      exact leaves_add (by simp [Shape.children]) fit.1.1

end

end Codemod.Tree.OfProgram
