import Codemod.Text.Splice

/-!
PHP programs as far as editing needs them. Calls, instantiations, arrays, functions, types and
control structures are told apart; everything else is an opaque piece of text. Every constructor
carries the place of its text, parts stand in source order.
-/

namespace Codemod.Php

inductive Hint where
  | name (span : Span)
  /-- A nullable type, or a type in parentheses. -/
  | wrapped (span : Span) (inner : Hint)
  /-- A union or an intersection. -/
  | joined (span : Span) (left right : Hint)
deriving DecidableEq, Repr

inductive Selector where
  | identifier (span : Span)
  | other (span : Span)
deriving DecidableEq, Repr

inductive ClassForm where
  | ordinary
  | trait
  | enum
  | interface
deriving DecidableEq, Repr

mutual

inductive Expr where
  | functionCall (span : Span) (callee : Expr) (arguments : ArgumentList)
  | methodCall (span : Span) (object : Expr) (method : Selector) (arguments : ArgumentList)
      (nullsafe : Bool)
  | staticCall (span : Span) (className : Expr) (method : Selector) (arguments : ArgumentList)
  | instantiation (span : Span) (className : Expr) (arguments : Option ArgumentList)
  | classConstant (span : Span) (className : Expr) (constant : Selector)
  | array (span : Span) (elements : List Element) (legacy : Bool)
  | parenthesized (span : Span) (inner : Expr)
  | literal (span : Span)
  | variable (span : Span)
  | identifier (span : Span)
  | closure (span : Span) (parameters : List Parameter) (returnType : Option Hint) (body : Block)
  | arrowFunction (span : Span) (parameters : List Parameter) (returnType : Option Hint)
      (body : Expr)
  | binary (span : Span) (left right : Expr)
  /-- An operator before its operand. -/
  | prefixed (span : Span) (operand : Expr)
  /-- An increment or a decrement, before or after its operand. -/
  | stepped (span : Span) (operand : Expr)
  | conditional (span : Span) (condition : Expr) (consequent : Option Expr) (alternative : Expr)
  | assignment (span : Span) (target value : Expr)
  | arrayAccess (span : Span) (array index : Expr)
  /-- A name that stands for a constant. -/
  | constant (span : Span)
  | other (span : Span)

inductive ArgumentList where
  | mk (span : Span) (arguments : List Argument)

inductive Argument where
  | positional (span : Span) (ellipsis : Bool) (value : Expr)
  | named (span : Span) (name : Span) (value : Expr)

inductive Element where
  | keyValue (span : Span) (key value : Expr)
  | value (span : Span) (value : Expr)
  | variadic (span : Span) (value : Expr)
  | missing (span : Span)

inductive Parameter where
  | mk (span : Span) (hint : Option Hint) (byRef variadic : Bool) (name : Span)
      (default : Option Expr)

inductive Statement where
  | expression (span : Span) (expression : Expr)
  | block (block : Block)
  | namespaced (span : Span) (statements : List Statement)
  | classLike (span : Span) (form : ClassForm) (methods : List Method)
  | function (span : Span) (parameters : List Parameter) (returnType : Option Hint)
      (body : Block)
  | branch (span : Span) (condition : Expr) (body : List Statement) (elseIfs : List ElseIf)
      (otherwise : List Statement)
  | whileLoop (span : Span) (condition : Expr) (body : List Statement)
  | doWhile (span : Span) (body : Statement) (condition : Expr)
  | forLoop (span : Span) (initial conditions steps : List Expr) (body : List Statement)
  | foreachLoop (span : Span) (subject : Expr) (body : List Statement)
  /-- The statements of all cases, in order. -/
  | switch (span : Span) (subject : Expr) (body : List Statement)
  | tryCatch (span : Span) (blocks : List Block)
  | returned (span : Span) (value : Option Expr)
  | echo (span : Span) (values : List Expr)
  | other (span : Span)

inductive ElseIf where
  | mk (condition : Expr) (body : List Statement)

inductive Block where
  | mk (span : Span) (statements : List Statement)

inductive Method where
  | mk (span : Span) (name : Span) (parameters : List Parameter) (returnType : Option Hint)
      (body : Option Block)

end

instance : Inhabited Expr := ⟨.other default⟩

instance : Inhabited Statement := ⟨.other default⟩

def Hint.span : Hint → Span
  | .name span | .wrapped span _ | .joined span _ _ => span

def Selector.span : Selector → Span
  | .identifier span | .other span => span

def Expr.span : Expr → Span
  | .functionCall span _ _ | .methodCall span _ _ _ _ | .staticCall span _ _ _
  | .instantiation span _ _ | .classConstant span _ _ | .array span _ _ | .parenthesized span _
  | .literal span | .variable span | .identifier span | .closure span _ _ _
  | .arrowFunction span _ _ _ | .binary span _ _ | .prefixed span _ | .stepped span _
  | .conditional span _ _ _ | .assignment span _ _ | .arrayAccess span _ _ | .constant span
  | .other span => span

def ArgumentList.span : ArgumentList → Span
  | .mk span _ => span

def Block.span : Block → Span
  | .mk span _ => span

def Method.span : Method → Span
  | .mk span _ _ _ _ => span

def Statement.span : Statement → Span
  | .expression span _ | .namespaced span _ | .classLike span _ _ | .function span _ _ _
  | .branch span _ _ _ _ | .whileLoop span _ _ | .doWhile span _ _ | .forLoop span _ _ _ _
  | .foreachLoop span _ _ | .switch span _ _ | .tryCatch span _ | .returned span _
  | .echo span _ | .other span => span
  | .block inner => inner.span

end Codemod.Php
